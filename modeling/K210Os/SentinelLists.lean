import K210Os.DoublyLinked

/-!
# Lists between two sentinels

A family of lists, each with a head and a tail node of its own, whose elements carry
the links themselves. `Represents L live c` says that the links of the lists in `live`
are those of the contents `c`, and that no element is linked twice.
-/

namespace K210Os.DoublyLinked

/-- The nodes of a family of lists `κ` over the elements `ι`. -/
inductive Node (κ ι : Type*) where
  | head (q : κ)
  | tail (q : κ)
  | elem (i : ι)
deriving DecidableEq

variable {κ ι : Type*} {L L' : Links (Node κ ι)} {q : κ} {i j : ι}
  {live : κ → Prop} {c : κ → List ι} {xs ys zs : List ι}

structure Represents (L : Links (Node κ ι)) (live : κ → Prop) (c : κ → List ι) : Prop where
  linked : ∀ q, live q → Linked L (.head q) ((c q).map .elem) (.tail q)
  dead : ∀ q, ¬ live q → c q = []
  nodup : ∀ q, (c q).Nodup
  disjoint : ∀ q q' i, i ∈ c q → i ∈ c q' → q = q'

theorem elem_injective : Function.Injective (Node.elem : ι → Node κ ι) := fun _ _ h =>
  Node.elem.inj h

theorem nodes_nodup (q : κ) (h : xs.Nodup) :
    ((.head q : Node κ ι) :: xs.map .elem).Nodup ∧ (.tail q : Node κ ι) ∉ xs.map .elem := by
  refine ⟨List.nodup_cons.mpr ⟨by simp, h.map elem_injective⟩, by simp⟩

theorem Represents.live_of_mem (h : Represents L live c) (hi : i ∈ c q) : live q := by
  by_contra hdead
  rw [h.dead q hdead] at hi
  cases hi

variable [DecidableEq κ]

/-- One list was relinked, and only in its own nodes and those it now has. -/
theorem Represents.replace (h : Represents L live c) (hq : live q)
    (hl : Linked L' (.head q) (zs.map .elem) (.tail q)) (hnodup : zs.Nodup)
    (hfresh : ∀ i ∈ zs, ∀ q', q' ≠ q → i ∉ c q')
    (hnext : ∀ x, x ≠ .head q → x ∉ (c q ++ zs).map .elem → L'.next x = L.next x)
    (hprev : ∀ x, x ≠ .tail q → x ∉ (c q ++ zs).map .elem → L'.prev x = L.prev x) :
    Represents L' live (Function.update c q zs) := by
  have hapart : ∀ q', q' ≠ q → ∀ i ∈ c q', Node.elem i ∉ (c q ++ zs).map (Node.elem (κ := κ)) := by
    intro q' hne i hi hmem
    rw [List.mem_map_of_injective elem_injective, List.mem_append] at hmem
    rcases hmem with hmem | hmem
    · exact hne (h.disjoint q' q i hi hmem)
    · exact hfresh i hmem q' hne hi
  constructor
  case linked =>
    intro q' hq'
    by_cases heq : q' = q
    · subst heq
      rwa [Function.update_self]
    · rw [Function.update_of_ne heq]
      refine (h.linked q' hq').congr (fun x hx => ?_) fun x hx => ?_
      · rcases List.mem_cons.mp hx with rfl | hx
        · exact hnext _ (fun heq' => heq (Node.head.inj heq')) (by simp)
        · obtain ⟨i, hi, rfl⟩ := List.mem_map.mp hx
          exact hnext _ (by simp) (hapart q' heq i hi)
      · rcases List.mem_append.mp hx with hx | hx
        · obtain ⟨i, hi, rfl⟩ := List.mem_map.mp hx
          exact hprev _ (by simp) (hapart q' heq i hi)
        · rw [List.mem_singleton.mp hx]
          exact hprev _ (fun heq' => heq (Node.tail.inj heq')) (by simp)
  case dead =>
    intro q' hq'
    rw [Function.update_of_ne fun heq : q' = q => hq' (heq.symm ▸ hq)]
    exact h.dead q' hq'
  case nodup =>
    intro q'
    by_cases heq : q' = q
    · subst heq
      rwa [Function.update_self]
    · rw [Function.update_of_ne heq]
      exact h.nodup q'
  case disjoint =>
    intro q₁ q₂ i h₁ h₂
    by_cases heq₁ : q₁ = q <;> by_cases heq₂ : q₂ = q
    · rw [heq₁, heq₂]
    · rw [heq₁, Function.update_self] at h₁
      rw [Function.update_of_ne heq₂] at h₂
      exact absurd h₂ (hfresh i h₁ q₂ heq₂)
    · rw [heq₂, Function.update_self] at h₂
      rw [Function.update_of_ne heq₁] at h₁
      exact absurd h₁ (hfresh i h₂ q₁ heq₁)
    · rw [Function.update_of_ne heq₁] at h₁
      rw [Function.update_of_ne heq₂] at h₂
      exact h.disjoint q₁ q₂ i h₁ h₂

variable [DecidableEq ι]

namespace Links

def listInit (L : Links (Node κ ι)) (q : κ) : Links (Node κ ι) :=
  (((L.setPrev (.head q) none).setNext (.head q) (some (.tail q))).setPrev (.tail q)
    (some (.head q))).setNext (.tail q) none

def listPush (L : Links (Node κ ι)) (q : κ) (i : ι) : Option (Links (Node κ ι)) :=
  (L.next (.head q)).bind fun before => L.insertBefore before (.elem i)

def listAppend (L : Links (Node κ ι)) (q : κ) (i : ι) : Option (Links (Node κ ι)) :=
  L.insertBefore (.tail q) (.elem i)

def listEmpty (L : Links (Node κ ι)) (q : κ) : Bool := L.next (.head q) == some (.tail q)

/-- Takes out the first node and delivers it; `none` where that is not an element. -/
def listPop (L : Links (Node κ ι)) (q : κ) : Option (ι × Links (Node κ ι)) :=
  match L.next (.head q) with
  | some (.elem i) => (L.remove (.elem i)).map fun L => (i, L)
  | _ => none

/-- Whether the list has the element, from `node` on; `none` is a walk that has not
ended or that leaves the list. -/
def elemFind (L : Links (Node κ ι)) (q : κ) (i : ι) : ℕ → Node κ ι → Option Bool
  | 0, _ => none
  | fuel + 1, node =>
      if node = .tail q then some false
      else if node = .elem i then some true
      else (L.next node).bind fun node => elemFind L q i fuel node

end Links

/-- Elements that are in no list and are not `i` keep their links. -/
def OthersKept (c : κ → List ι) (i : ι) (L L' : Links (Node κ ι)) : Prop :=
  ∀ j, j ≠ i → (∀ q, j ∉ c q) →
    L'.next (.elem j) = L.next (.elem j) ∧ L'.prev (.elem j) = L.prev (.elem j)

theorem Represents.append (h : Represents L live c) (hq : live q) (hi : ∀ q', i ∉ c q') :
    ∃ L', L.listAppend q i = some L' ∧
      Represents L' live (Function.update c q (c q ++ [i])) ∧ OthersKept c i L L' := by
  obtain ⟨hnodup, htail⟩ := nodes_nodup (κ := κ) q (h.nodup q)
  have hfresh : Node.elem i ∉ (c q).map (Node.elem (κ := κ)) := by
    rw [List.mem_map_of_injective elem_injective]
    exact hi q
  obtain ⟨L', hrun, hl, hnext, hprev⟩ := (h.linked q hq).insert_end hnodup htail
    (x := .elem i) (by simpa using hfresh) (by simp)
  refine ⟨L', hrun, h.replace hq (by simpa using hl) ?_ ?_ (fun x hx hmem => ?_)
    fun x hx hmem => ?_, fun j hj hjc => ⟨hnext _ ?_ ?_, hprev _ ?_ ?_⟩⟩
  · exact List.nodup_append.mpr ⟨h.nodup q, List.nodup_singleton i, by
      simpa using fun a ha (heq : a = i) => hi q (heq ▸ ha)⟩
  · intro j hj q' hne hmem
    rcases List.mem_append.mp hj with hj | hj
    · exact hne (h.disjoint q' q j hmem hj)
    · exact hi q' (List.mem_singleton.mp hj ▸ hmem)
  · simp only [List.map_append, List.mem_append, List.map_singleton, List.mem_singleton,
      not_or] at hmem
    exact hnext x (by simp [hx, hmem]) hmem.2.2
  · simp only [List.map_append, List.mem_append, List.map_singleton, List.mem_singleton,
      not_or] at hmem
    exact hprev x hx hmem.2.2
  · simpa using hjc q
  · simpa using hj
  · simp
  · simpa using hj

theorem Represents.insert (h : Represents L live c) (hc : c q = xs ++ j :: ys)
    (hi : ∀ q', i ∉ c q') :
    ∃ L', L.insertBefore (.elem j) (.elem i) = some L' ∧
      Represents L' live (Function.update c q (xs ++ i :: j :: ys)) ∧ OthersKept c i L L' := by
  have hq : live q := h.live_of_mem (q := q) (i := j) (by simp [hc])
  obtain ⟨hnodup, htail⟩ := nodes_nodup (κ := κ) q (h.nodup q)
  have hl := h.linked q hq
  have hicq := hi q
  simp only [hc, List.map_append, List.map_cons] at hl hnodup htail
  obtain ⟨L', hrun, hl, hnext, hprev⟩ := hl.insert_before hnodup htail (x := .elem i)
    (by simpa [hc] using hicq) (by simp)
  have hperm : (xs ++ i :: j :: ys).Perm (i :: c q) := by
    rw [hc]
    exact List.perm_middle
  refine ⟨L', hrun, h.replace hq (by simpa using hl) ?_ ?_ (fun x hx hmem => ?_)
    fun x hx hmem => ?_, fun k hk hkc => ⟨hnext _ ?_ ?_, hprev _ ?_ ?_⟩⟩
  · exact hperm.nodup_iff.mpr (List.nodup_cons.mpr ⟨hicq, h.nodup q⟩)
  · intro k hk q' hne hmem
    rcases List.mem_cons.mp (hperm.mem_iff.mp hk) with rfl | hk
    · exact hi q' hmem
    · exact hne (h.disjoint q' q k hmem hk)
  · simp only [hc, List.map_append, List.map_cons, List.mem_append, List.mem_cons, not_or] at hmem
    exact hnext x (by simp [hx, hmem]) hmem.2.2.1
  · simp only [hc, List.map_append, List.map_cons, List.mem_append, List.mem_cons, not_or] at hmem
    exact hprev x (by simp [hmem]) hmem.2.2.1
  · have := hkc q
    simpa [hc] using this
  · simpa using hk
  · have := hkc q
    simpa [hc] using this
  · simpa using hk

theorem Represents.push (h : Represents L live c) (hq : live q) (hi : ∀ q', i ∉ c q') :
    ∃ L', L.listPush q i = some L' ∧
      Represents L' live (Function.update c q (i :: c q)) ∧ OthersKept c i L L' := by
  have hnext := (h.linked q hq).next_start
  cases hc : c q with
  | nil =>
      obtain ⟨L', hrun, hrest⟩ := h.append hq hi
      simp only [hc, List.map_nil, List.nil_append, List.head_cons] at hnext
      refine ⟨L', ?_, by simpa [hc] using hrest⟩
      rw [Links.listPush, hnext]
      exact hrun
  | cons j ys =>
      obtain ⟨L', hrun, hrest⟩ := h.insert (show c q = [] ++ j :: ys from hc) hi
      simp only [hc, List.map_cons, List.cons_append, List.head_cons] at hnext
      refine ⟨L', ?_, hrest⟩
      rw [Links.listPush, hnext]
      exact hrun

theorem Represents.remove (h : Represents L live c) (hc : c q = xs ++ i :: ys) :
    ∃ L', L.remove (.elem i) = some L' ∧ Represents L' live (Function.update c q (xs ++ ys)) ∧
      L'.next (.elem i) = none ∧ L'.prev (.elem i) = none ∧ OthersKept c i L L' := by
  have hq : live q := h.live_of_mem (q := q) (i := i) (by simp [hc])
  obtain ⟨hnodup, htail⟩ := nodes_nodup (κ := κ) q (h.nodup q)
  have hl := h.linked q hq
  simp only [hc, List.map_append, List.map_cons] at hl hnodup htail
  obtain ⟨L', hrun, hl, hin, hip, hnext, hprev⟩ := hl.remove hnodup htail
  have hsub : (xs ++ ys).Sublist (c q) := by
    rw [hc]
    exact List.Sublist.append_left (List.sublist_cons_self i ys) xs
  refine ⟨L', hrun, h.replace hq (by simpa using hl) ((h.nodup q).sublist hsub) ?_
    (fun x hx hmem => ?_) fun x hx hmem => ?_, hin, hip,
    fun k hk hkc => ⟨hnext _ ?_, hprev _ ?_ ?_⟩⟩
  · exact fun k hk q' hne hmem => hne (h.disjoint q' q k hmem (hsub.subset hk))
  · simp only [hc, List.map_append, List.map_cons, List.mem_append, List.mem_cons, not_or] at hmem
    exact hnext x (by simp [hx, hmem])
  · simp only [hc, List.map_append, List.map_cons, List.mem_append, List.mem_cons, not_or] at hmem
    exact hprev x (by simp [hmem]) hx
  · have := hkc q
    simpa [hc] using this
  · have := hkc q
    simpa [hc] using this
  · simp

theorem Represents.pop (h : Represents L live c) (hc : c q = i :: ys) :
    ∃ L', L.listPop q = some (i, L') ∧ Represents L' live (Function.update c q ys) ∧
      L'.next (.elem i) = none ∧ L'.prev (.elem i) = none ∧ OthersKept c i L L' := by
  have hq : live q := h.live_of_mem (q := q) (i := i) (by simp [hc])
  have hnext := (h.linked q hq).next_start
  simp only [hc, List.map_cons, List.cons_append, List.head_cons] at hnext
  obtain ⟨L', hrun, hrest⟩ := h.remove (show c q = [] ++ i :: ys from hc)
  refine ⟨L', ?_, hrest⟩
  rw [Links.listPop, hnext]
  simp only [hrun, Option.map_some]

theorem Represents.listEmpty_iff (h : Represents L live c) (hq : live q) :
    L.listEmpty q = true ↔ c q = [] := by
  rw [Links.listEmpty, (h.linked q hq).next_start]
  cases hc : c q <;> simp

/-- A list is made empty; what it had is in no list any more. -/
theorem Represents.init (h : Represents L live c) (hc : c q = []) :
    Represents (L.listInit q) (fun q' => q' = q ∨ live q') c ∧
      ∀ j, (L.listInit q).next (.elem j) = L.next (.elem j) ∧
        (L.listInit q).prev (.elem j) = L.prev (.elem j) := by
  refine ⟨⟨fun q' hq' => ?_, fun q' hq' => h.dead q' fun hl => hq' (.inr hl), h.nodup, h.disjoint⟩,
    fun j => by simp [Links.listInit]⟩
  by_cases heq : q' = q
  · subst heq
    simp [hc, Linked, Links.listInit]
  · refine (h.linked q' (hq'.resolve_left heq)).congr (fun x hx => ?_) fun x hx => ?_
    · rcases List.mem_cons.mp hx with rfl | hx
      · simp [Links.listInit, heq]
      · obtain ⟨i, hi, rfl⟩ := List.mem_map.mp hx
        simp [Links.listInit]
    · rcases List.mem_append.mp hx with hx | hx
      · obtain ⟨i, hi, rfl⟩ := List.mem_map.mp hx
        simp [Links.listInit]
      · rw [List.mem_singleton.mp hx]
        simp [Links.listInit, heq]

/-- A list that is made empty again: what it had is in no list any more. -/
theorem Represents.reinit (h : Represents L live c) (q : κ) :
    Represents (L.listInit q) (fun q' => q' = q ∨ live q') (Function.update c q []) := by
  have hdrop : Represents L (fun q' => q' ≠ q ∧ live q') (Function.update c q []) := by
    have hsub : ∀ q' i, i ∈ Function.update c q [] q' → i ∈ c q' := by
      intro q' i hi
      by_cases heq : q' = q
      · rw [heq, Function.update_self] at hi
        cases hi
      · rwa [Function.update_of_ne heq] at hi
    refine ⟨fun q' hq' => ?_, fun q' hq' => ?_, fun q' => ?_, fun q₁ q₂ i h₁ h₂ =>
      h.disjoint q₁ q₂ i (hsub q₁ i h₁) (hsub q₂ i h₂)⟩
    · rw [Function.update_of_ne hq'.1]
      exact h.linked q' hq'.2
    · by_cases heq : q' = q
      · rw [heq, Function.update_self]
      · rw [Function.update_of_ne heq]
        exact h.dead q' fun hlive => hq' ⟨heq, hlive⟩
    · by_cases heq : q' = q
      · rw [heq, Function.update_self]
        exact List.nodup_nil
      · rw [Function.update_of_ne heq]
        exact h.nodup q'
  have hlive : (fun q' => q' = q ∨ q' ≠ q ∧ live q') = fun q' => q' = q ∨ live q' := by
    funext q'
    by_cases heq : q' = q <;> simp [heq]
  exact hlive ▸ (hdrop.init (Function.update_self q [] c)).1

/-- The outer links of the sentinels, which no operation on elements changes. -/
def SentinelsKept (L L' : Links (Node κ ι)) : Prop :=
  ∀ q, L'.prev (.head q) = L.prev (.head q) ∧ L'.next (.tail q) = L.next (.tail q)

theorem Represents.insertBefore_sentinels {before : Node κ ι} (h : Represents L live c)
    (hq : live q) (hb : before ∈ (c q).map .elem ++ [.tail q])
    (hrun : L.insertBefore before (.elem i) = some L') : SentinelsKept L L' := by
  intro q'
  obtain ⟨hnext, hprev⟩ := Links.insertBefore_kept hrun
  obtain ⟨p, hp, hback, -⟩ := (h.linked q hq).prev_mem hb
  refine ⟨hprev _ (by simp) ?_, hnext _ (by simp) ?_⟩
  · rintro rfl
    simp at hb
  · intro heq
    rw [Option.some.inj (hback.symm.trans heq)] at hp
    simp at hp

theorem Represents.remove_sentinels (h : Represents L live c) (hi : i ∈ c q)
    (hrun : L.remove (.elem i) = some L') : SentinelsKept L L' := by
  intro q'
  obtain ⟨hnext, hprev⟩ := Links.remove_kept hrun
  have hl := h.linked q (h.live_of_mem hi)
  obtain ⟨p, hp, hback, -⟩ := hl.prev_mem (y := .elem i) (by simp [hi])
  obtain ⟨n, hn, hforth, -⟩ := hl.next_mem (x := .elem i) (by simp [hi])
  refine ⟨hprev _ (by simp) fun heq => ?_, hnext _ (by simp) fun heq => ?_⟩
  · rw [Option.some.inj (hforth.symm.trans heq)] at hn
    simp at hn
  · rw [Option.some.inj (hback.symm.trans heq)] at hp
    simp at hp

theorem Represents.push_sentinels (h : Represents L live c) (hq : live q)
    (hrun : L.listPush q i = some L') : SentinelsKept L L' := by
  obtain ⟨before, hbefore, hrun⟩ := Option.bind_eq_some_iff.mp hrun
  obtain ⟨y, hy, hnext, -⟩ := (h.linked q hq).next_mem (x := .head q) (by simp)
  rw [Option.some.inj (hnext.symm.trans hbefore)] at hy
  exact h.insertBefore_sentinels hq hy hrun

theorem Represents.pop_sentinels (h : Represents L live c) (hc : c q = i :: ys)
    (hrun : L.listPop q = some (i, L')) : SentinelsKept L L' := by
  have hi : i ∈ c q := by simp [hc]
  have hnext := (h.linked q (h.live_of_mem hi)).next_start
  simp only [hc, List.map_cons, List.cons_append, List.head_cons] at hnext
  refine h.remove_sentinels hi ?_
  rw [Links.listPop, hnext] at hrun
  simpa using hrun

/-- The walk of `elemFind` finds what is in the list. -/
theorem elemFind_eq {fuel : ℕ} {a : Node κ ι} (hl : Linked L a (xs.map .elem) (.tail q))
    (hfuel : xs.length < fuel) :
    ((L.next a).bind fun node => L.elemFind q i fuel node) = some (decide (i ∈ xs)) := by
  induction xs generalizing a fuel with
  | nil =>
      obtain ⟨fuel, rfl⟩ := Nat.exists_eq_add_one_of_ne_zero (by omega : fuel ≠ 0)
      rw [hl.1]
      simp [Links.elemFind]
  | cons x xs ih =>
      obtain ⟨fuel, rfl⟩ := Nat.exists_eq_add_one_of_ne_zero (by omega : fuel ≠ 0)
      obtain ⟨hn, -, hl⟩ := hl
      rw [hn, Option.bind_some, Links.elemFind, if_neg (by simp)]
      by_cases hx : x = i
      · simp [hx]
      · rw [if_neg fun heq => hx (Node.elem.inj heq), ih hl (by simpa using hfuel)]
        simp [Ne.symm hx]

end K210Os.DoublyLinked
