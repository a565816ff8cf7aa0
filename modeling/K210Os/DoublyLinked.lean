import Mathlib.Data.List.Induction
import Mathlib.Data.List.Nodup
import Mathlib.Logic.Function.Basic

/-!
# Doubly linked lists that are linked in their elements

Each node has a link forth and a link back. `Linked L a xs b` says that the links lead
from `a` through `xs` to `b` and back; a circular list is the case `a = b`. Inserting
and removing change few links, so that everything beside the place stays linked.
-/

namespace K210Os.DoublyLinked

structure Links (ν : Type*) where
  prev : ν → Option ν
  next : ν → Option ν

variable {ν : Type*} {L L' : Links ν} {a b p x y : ν} {xs ys : List ν}

def Linked (L : Links ν) : ν → List ν → ν → Prop
  | a, [], b => L.next a = some b ∧ L.prev b = some a
  | a, x :: xs, b => L.next a = some x ∧ L.prev x = some a ∧ Linked L x xs b

attribute [local simp] Linked

theorem Linked.append_iff :
    Linked L a (xs ++ y :: ys) b ↔ Linked L a xs y ∧ Linked L y ys b := by
  induction xs generalizing a with
  | nil => simp [Linked, and_assoc]
  | cons x xs ih => simp [Linked, ih, and_assoc]

theorem Linked.congr (h : Linked L a xs b) (hnext : ∀ x ∈ a :: xs, L'.next x = L.next x)
    (hprev : ∀ x ∈ xs ++ [b], L'.prev x = L.prev x) : Linked L' a xs b := by
  induction xs generalizing a with
  | nil => exact ⟨(hnext a (by simp)).trans h.1, (hprev b (by simp)).trans h.2⟩
  | cons x xs ih =>
      obtain ⟨hn, hp, h⟩ := h
      exact ⟨(hnext a (by simp)).trans hn, (hprev x (by simp)).trans hp,
        ih h (fun y hy => hnext y (List.mem_cons_of_mem _ hy))
          fun y hy => hprev y (List.mem_cons_of_mem _ hy)⟩

/-- The first node behind `a`. -/
theorem Linked.next_start (h : Linked L a xs b) : L.next a = some ((xs ++ [b]).head (by simp)) := by
  cases xs with
  | nil => exact h.1
  | cons x xs => exact h.1

/-- The last node before `b`; the end can be moved by changing its link. -/
theorem Linked.redirect_end (h : Linked L a xs b) (hnodup : (a :: xs).Nodup) :
    ∃ p ∈ a :: xs, L.prev b = some p ∧ ∀ (L' : Links ν) (z : ν),
      (∀ y ∈ a :: xs, y ≠ p → L'.next y = L.next y) → (∀ y ∈ xs, L'.prev y = L.prev y) →
      L'.next p = some z → L'.prev z = some p → Linked L' a xs z := by
  rcases List.eq_nil_or_concat xs with rfl | ⟨ys, p, rfl⟩
  · exact ⟨a, by simp, h.2, fun L' z _ _ hn hp => ⟨hn, hp⟩⟩
  · rw [List.concat_eq_append] at h hnodup ⊢
    obtain ⟨hfirst, -, hback⟩ := Linked.append_iff.mp h
    have hfresh : p ∉ a :: ys := fun hmem =>
      (List.nodup_append.mp (List.cons_append ▸ hnodup)).2.2 p hmem p (by simp) rfl
    refine ⟨p, by simp, hback, fun L' z hnext hprev hn hp => Linked.append_iff.mpr ⟨?_, hn, hp⟩⟩
    refine hfirst.congr (fun y hy => hnext y ?_ ?_) hprev
    · simp only [List.mem_cons, List.mem_append] at hy ⊢
      tauto
    · rintro rfl
      exact hfresh hy

/-- The links seen from the other end. -/
def Links.flip (L : Links ν) : Links ν := ⟨L.next, L.prev⟩

theorem Linked.flip (h : Linked L a xs b) : Linked L.flip b xs.reverse a := by
  induction xs generalizing a with
  | nil => exact ⟨h.2, h.1⟩
  | cons x xs ih =>
      rw [List.reverse_cons]
      exact Linked.append_iff.mpr ⟨ih h.2.2, h.2.1, h.1⟩

/-- A link forth leads to the next node, which has the link back. -/
theorem Linked.next_mem (h : Linked L a xs b) (hx : x ∈ a :: xs) :
    ∃ y ∈ xs ++ [b], L.next x = some y ∧ L.prev y = some x := by
  induction xs generalizing a with
  | nil =>
      rw [List.mem_singleton] at hx
      subst hx
      exact ⟨b, by simp, h⟩
  | cons y xs ih =>
      obtain ⟨hn, hp, h⟩ := h
      rcases List.mem_cons.mp hx with rfl | hx
      · exact ⟨y, by simp, hn, hp⟩
      · obtain ⟨z, hz, hlinks⟩ := ih h hx
        exact ⟨z, List.mem_cons_of_mem _ hz, hlinks⟩

theorem Linked.prev_mem (h : Linked L a xs b) (hy : y ∈ xs ++ [b]) :
    ∃ x ∈ a :: xs, L.prev y = some x ∧ L.next x = some y := by
  have hy' : y ∈ b :: xs.reverse := by simpa [or_comm] using hy
  obtain ⟨x, hx, hlinks⟩ := h.flip.next_mem hy'
  exact ⟨x, by simpa [or_comm] using hx, hlinks⟩

/-- The nodes of a list determine its links. -/
theorem Linked.links_eq (h : Linked L a xs b) (h' : Linked L' a xs b) :
    (∀ x ∈ a :: xs, L'.next x = L.next x) ∧ ∀ x ∈ xs ++ [b], L'.prev x = L.prev x := by
  induction xs generalizing a with
  | nil => simp [h.1, h.2, h'.1, h'.2]
  | cons y xs ih =>
      obtain ⟨hn, hp, h⟩ := h
      obtain ⟨hn', hp', h'⟩ := h'
      obtain ⟨hnext, hprev⟩ := ih h h'
      refine ⟨fun x hx => ?_, fun x hx => ?_⟩
      · rcases List.mem_cons.mp hx with rfl | hx
        · rw [hn, hn']
        · exact hnext x hx
      · rcases List.mem_cons.mp hx with rfl | hx
        · rw [hp, hp']
        · exact hprev x hx

section
variable [DecidableEq ν]

/-- The first node along the links that passes the test, from `node` up to `stop`; `none`
is a walk that has not ended. -/
def Links.find (L : Links ν) (stop : ν) (test : ν → Bool) : ℕ → ν → Option (Option ν)
  | 0, _ => none
  | fuel + 1, node =>
      if node = stop then some none
      else if test node then some (some node)
      else (L.next node).bind (find L stop test fuel)

theorem Linked.find_eq {test : ν → Bool} {fuel : ℕ} (h : Linked L a xs b) (hb : b ∉ xs)
    (hfuel : xs.length < fuel) :
    ((L.next a).bind (L.find b test fuel)) = some (xs.find? test) := by
  induction xs generalizing a fuel with
  | nil =>
      obtain ⟨fuel, rfl⟩ := Nat.exists_eq_add_one_of_ne_zero (by omega : fuel ≠ 0)
      simp [h.1, Links.find]
  | cons x xs ih =>
      obtain ⟨fuel, rfl⟩ := Nat.exists_eq_add_one_of_ne_zero (by omega : fuel ≠ 0)
      obtain ⟨hn, -, h⟩ := h
      rw [List.mem_cons, not_or] at hb
      rw [List.length_cons] at hfuel
      rw [hn, Option.bind_some, Links.find, if_neg (Ne.symm hb.1)]
      cases htest : test x with
      | true => simp [htest]
      | false => simpa [htest] using ih h hb.2 (by omega)

def Links.setPrev (L : Links ν) (x : ν) (y : Option ν) : Links ν :=
  { L with prev := Function.update L.prev x y }

def Links.setNext (L : Links ν) (x : ν) (y : Option ν) : Links ν :=
  { L with next := Function.update L.next x y }

@[simp] theorem Links.setPrev_prev (L : Links ν) (x z : ν) (y : Option ν) :
    (L.setPrev x y).prev z = if z = x then y else L.prev z := Function.update_apply _ _ _ _

@[simp] theorem Links.setPrev_next (L : Links ν) (x : ν) (y : Option ν) :
    (L.setPrev x y).next = L.next := rfl

@[simp] theorem Links.setNext_next (L : Links ν) (x z : ν) (y : Option ν) :
    (L.setNext x y).next z = if z = x then y else L.next z := Function.update_apply _ _ _ _

@[simp] theorem Links.setNext_prev (L : Links ν) (x : ν) (y : Option ν) :
    (L.setNext x y).prev = L.prev := rfl

/-- Links `elem` in before `before`; `none` is a store through a null link. -/
def Links.insertBefore (L : Links ν) (before elem : ν) : Option (Links ν) :=
  (L.prev before).map fun p =>
    (((L.setNext p elem).setPrev elem p).setNext elem before).setPrev before elem

/-- Takes `elem` out and clears its links. -/
def Links.remove (L : Links ν) (elem : ν) : Option (Links ν) := do
  let p ← L.prev elem
  let n ← L.next elem
  return (((L.setNext p n).setPrev n p).setPrev elem none).setNext elem none

theorem Links.insertBefore_kept (h : L.insertBefore y x = some L') :
    (∀ z, z ≠ x → L.prev y ≠ some z → L'.next z = L.next z) ∧
      ∀ z, z ≠ x → z ≠ y → L'.prev z = L.prev z := by
  obtain ⟨p, hp, rfl⟩ := Option.map_eq_some_iff.mp h
  refine ⟨fun z hzx hzp => ?_, fun z hzx hzy => by simp [hzx, hzy]⟩
  have hne : z ≠ p := fun heq => hzp (heq ▸ hp)
  simp [hzx, hne]

theorem Links.remove_kept (h : L.remove x = some L') :
    (∀ z, z ≠ x → L.prev x ≠ some z → L'.next z = L.next z) ∧
      ∀ z, z ≠ x → L.next x ≠ some z → L'.prev z = L.prev z := by
  obtain ⟨p, hp, h⟩ := Option.bind_eq_some_iff.mp h
  obtain ⟨n, hn, h⟩ := Option.bind_eq_some_iff.mp h
  obtain rfl := Option.some.inj h
  rw [hp, hn]
  refine ⟨fun z hzx hzp => ?_, fun z hzx hzn => ?_⟩
  · have hne : z ≠ p := fun heq => hzp (congrArg some heq.symm)
    simp [hzx, hne]
  · have hne : z ≠ n := fun heq => hzn (congrArg some heq.symm)
    simp [hzx, hne]

/-- Inserting before the end of a list. -/
theorem Linked.insert_end (h : Linked L a xs b) (hnodup : (a :: xs).Nodup) (hb : b ∉ xs)
    (hx : x ∉ a :: xs) (hxb : x ≠ b) :
    ∃ L', L.insertBefore b x = some L' ∧ Linked L' a (xs ++ [x]) b ∧
      (∀ y, y ∉ a :: xs → y ≠ x → L'.next y = L.next y) ∧
      ∀ y, y ≠ b → y ≠ x → L'.prev y = L.prev y := by
  obtain ⟨p, hp, hprev, hredirect⟩ := h.redirect_end hnodup
  have hpx : p ≠ x := fun heq => hx (heq ▸ hp)
  have hsame : ∀ y ∈ xs, y ≠ b ∧ y ≠ x := fun y hy =>
    ⟨fun heq => hb (heq ▸ hy), fun heq => hx (List.mem_cons_of_mem _ (heq ▸ hy))⟩
  refine ⟨_, by rw [Links.insertBefore, hprev]; rfl, Linked.append_iff.mpr ⟨?_, ?_⟩,
    fun y hy hyx => ?_, fun y hyb hyx => ?_⟩
  · refine hredirect _ x (fun y hy hyp => ?_) (fun y hy => ?_) ?_ ?_
    · have hyx : y ≠ x := fun heq => hx (heq ▸ hy)
      simp [hyp, hyx]
    · simp [hsame y hy]
    · simp [hpx]
    · simp [hxb]
  · simp [Linked]
  · have hyp : y ≠ p := fun heq => hy (heq ▸ hp)
    simp [hyp, hyx]
  · simp [hyb, hyx]

/-- Inserting before a node of a list. -/
theorem Linked.insert_before (h : Linked L a (xs ++ y :: ys) b)
    (hnodup : (a :: (xs ++ y :: ys)).Nodup) (hb : b ∉ xs ++ y :: ys)
    (hx : x ∉ a :: (xs ++ y :: ys)) (hxb : x ≠ b) :
    ∃ L', L.insertBefore y x = some L' ∧ Linked L' a (xs ++ x :: y :: ys) b ∧
      (∀ z, z ∉ a :: (xs ++ y :: ys) → z ≠ x → L'.next z = L.next z) ∧
      ∀ z, z ∉ xs ++ y :: ys → z ≠ x → L'.prev z = L.prev z := by
  obtain ⟨hfirst, hrest⟩ := Linked.append_iff.mp h
  rw [← List.cons_append] at hnodup hx
  obtain ⟨hnodup₁, hnodup₂, hapart⟩ := List.nodup_append.mp hnodup
  have hy : y ∉ xs := fun hmem => hapart y (List.mem_cons_of_mem _ hmem) y (by simp) rfl
  simp only [List.mem_append, List.mem_cons, not_or] at hx hb
  obtain ⟨L', hrun, hlink, hnext, hprev⟩ :=
    hfirst.insert_end hnodup₁ hy (x := x) (by simp [hx]) (by tauto)
  refine ⟨L', hrun, ?_, fun z hz hzx => hnext z ?_ hzx, fun z hz hzx => hprev z ?_ hzx⟩
  · rw [List.append_cons]
    refine Linked.append_iff.mpr ⟨hlink, hrest.congr (fun z hz => ?_) fun z hz => ?_⟩
    · refine hnext z (fun hmem => hapart z hmem z hz rfl) ?_
      rintro rfl
      simp only [List.mem_cons] at hz
      tauto
    · have hyz : y ∉ ys := (List.nodup_cons.mp hnodup₂).1
      simp only [List.mem_append, List.mem_singleton] at hz
      refine hprev z ?_ ?_ <;> rintro rfl <;> tauto
  · simp only [List.mem_cons, List.mem_append, not_or] at hz ⊢
    tauto
  · simp only [List.mem_append, List.mem_cons, not_or] at hz
    tauto

/-- Removing a node of a list. -/
theorem Linked.remove (h : Linked L a (xs ++ x :: ys) b) (hnodup : (a :: (xs ++ x :: ys)).Nodup)
    (hb : b ∉ xs ++ x :: ys) :
    ∃ L', L.remove x = some L' ∧ Linked L' a (xs ++ ys) b ∧ L'.next x = none ∧ L'.prev x = none ∧
      (∀ z, z ∉ a :: (xs ++ x :: ys) → L'.next z = L.next z) ∧
      ∀ z, z ∉ xs ++ x :: ys → z ≠ b → L'.prev z = L.prev z := by
  obtain ⟨hfirst, hrest⟩ := Linked.append_iff.mp h
  rw [← List.cons_append] at hnodup
  obtain ⟨hnodup₁, hnodup₂, hapart⟩ := List.nodup_append.mp hnodup
  obtain ⟨p, hp, hprev, hredirect⟩ := hfirst.redirect_end hnodup₁
  have hxfirst : x ∉ a :: xs := fun hmem => hapart x hmem x (by simp) rfl
  have hpx : p ≠ x := fun heq => hxfirst (heq ▸ hp)
  have hbx : b ≠ x := by
    rintro rfl
    simp at hb
  have hbxs : b ∉ xs := fun hmem => hb (List.mem_append_left _ hmem)
  cases ys with
  | nil =>
      refine ⟨_, by rw [Links.remove, hprev, hrest.1]; rfl, ?_, by simp, by simp,
        fun z hz => ?_, fun z hz hzb => ?_⟩
      · rw [List.append_nil]
        refine hredirect _ b (fun y hy hyp => ?_) (fun y hy => ?_) ?_ ?_
        · have hyx : y ≠ x := fun heq => hxfirst (heq ▸ hy)
          simp [hyx, hyp]
        · have hyx : y ≠ x := fun heq => hxfirst (List.mem_cons_of_mem _ (heq ▸ hy))
          have hyb : y ≠ b := fun heq => hbxs (heq ▸ hy)
          simp [hyx, hyb]
        · simp [hpx]
        · simp [hbx]
      · simp only [List.mem_cons, List.mem_append, not_or] at hz hp
        have hzp : z ≠ p := by
          rintro rfl
          tauto
        have hzx : z ≠ x := by tauto
        simp [hzp, hzx]
      · simp only [List.mem_append, List.mem_cons, not_or] at hz
        have hzx : z ≠ x := by tauto
        simp [hzx, hzb]
  | cons n ys =>
      obtain ⟨hnx, hpn, hrest⟩ := hrest
      obtain ⟨hxy, hnodup₂⟩ := List.nodup_cons.mp hnodup₂
      have hny : n ∉ ys := (List.nodup_cons.mp hnodup₂).1
      have hnx' : n ≠ x := by
        rintro rfl
        simp at hxy
      have hnb : n ≠ b := by
        rintro rfl
        simp at hb
      have hnfirst : n ∉ a :: xs := fun hmem => hapart n hmem n (by simp) rfl
      refine ⟨_, by rw [Links.remove, hprev, hnx]; rfl, Linked.append_iff.mpr ⟨?_, ?_⟩, by simp,
        by simp, fun z hz => ?_, fun z hz hzb => ?_⟩
      · refine hredirect _ n (fun y hy hyp => ?_) (fun y hy => ?_) ?_ ?_
        · have hyx : y ≠ x := fun heq => hxfirst (heq ▸ hy)
          simp [hyx, hyp]
        · have hyx : y ≠ x := fun heq => hxfirst (List.mem_cons_of_mem _ (heq ▸ hy))
          have hyn : y ≠ n := fun heq => hnfirst (List.mem_cons_of_mem _ (heq ▸ hy))
          simp [hyx, hyn]
        · simp [hpx]
        · simp [hnx']
      · refine hrest.congr (fun z hz => ?_) fun z hz => ?_
        · have hzp : z ≠ p := fun heq => hapart p hp z (List.mem_cons_of_mem _ hz) heq.symm
          have hzx : z ≠ x := fun heq => hxy (heq ▸ hz)
          simp [hzp, hzx]
        · simp only [List.mem_append, List.mem_singleton] at hz
          have hzn : z ≠ n := by
            rintro rfl
            tauto
          have hzx : z ≠ x := by
            rintro rfl
            simp only [List.mem_cons] at hxy
            tauto
          simp [hzn, hzx]
      · simp only [List.mem_cons, List.mem_append, not_or] at hz hp
        have hzp : z ≠ p := by
          rintro rfl
          tauto
        have hzx : z ≠ x := by tauto
        simp [hzp, hzx]
      · simp only [List.mem_append, List.mem_cons, not_or] at hz
        have hzx : z ≠ x := by tauto
        have hzn : z ≠ n := by tauto
        simp [hzx, hzn]

end

end K210Os.DoublyLinked
