import K210Os.Address
import K210Os.KernelLists
import K210Os.Transition

/-!
# Runs of the kernel's lists

The lists are finite sequences, and each call changes or reads the sequences. Whatever
calls are mixed, on however many lists, the links are those of the sequences, and every
call returns what the sequences say.
-/

namespace K210Os

open DoublyLinked Transition

/-- The bytes of `struct list_elem`. -/
def listElemSize : ℕ := 16

/-- Where the elements lie, each apart from the others in the memory. -/
structure ListElems (ι : Type*) where
  addr : ι → ℕ
  inMemory : ∀ i, addr i + listElemSize ≤ memoryEnd
  apart : ∀ i j, i ≠ j → addr i + listElemSize ≤ addr j ∨ addr j + listElemSize ≤ addr i

inductive ListOp (κ ι : Type*) where
  | init (q : κ)
  | push (q : κ) (elem : ι)
  | append (q : κ) (elem : ι)
  | insertBefore (before elem : ι)
  | remove (pelem : ι)
  | pop (q : κ)
  | tail (q : κ)
  | find (q : κ) (objElem : ι)
  | traversal (q : κ) (func : Node κ ι → ℤ → Bool) (arg : ℤ)
  | len (q : κ)
  | empty (q : κ)

inductive ListAnswer (κ ι : Type*) where
  | done
  | node (elem : Option (Node κ ι))
  | flag (b : Bool)
  | length (n : ℕ)

/-- Which lists were initialised, the sequence of each, and which elements were taken out
and not inserted since. -/
structure Sequences (κ ι : Type*) where
  live : κ → Bool
  seq : κ → List ι
  removed : ι → Bool

/-- The sequence with the element just before the given one. -/
def putBefore {ι : Type*} [DecidableEq ι] (before elem : ι) : List ι → List ι
  | [] => []
  | x :: xs => if x = before then elem :: x :: xs else x :: putBefore before elem xs

variable {κ ι : Type*} [DecidableEq ι]

namespace Sequences

/-- Before any list is initialised. -/
def start : Sequences κ ι := ⟨fun _ => false, fun _ => [], fun _ => false⟩

def put (c : Sequences κ ι) (elem : ι) (seq : κ → List ι) : Sequences κ ι :=
  { c with seq := seq, removed := Function.update c.removed elem false }

def take (c : Sequences κ ι) (elem : ι) (seq : κ → List ι) : Sequences κ ι :=
  { c with seq := seq, removed := Function.update c.removed elem true }

@[simp] theorem take_live (c : Sequences κ ι) (elem : ι) (seq : κ → List ι) :
    (c.take elem seq).live = c.live := rfl

@[simp] theorem take_seq (c : Sequences κ ι) (elem : ι) (seq : κ → List ι) :
    (c.take elem seq).seq = seq := rfl

variable [DecidableEq κ]

def step (c : Sequences κ ι) : ListOp κ ι → ListAnswer κ ι × Sequences κ ι
  | .init q =>
      (.done, { c with live := Function.update c.live q true, seq := Function.update c.seq q [] })
  | .push q elem => (.done, c.put elem (Function.update c.seq q (elem :: c.seq q)))
  | .append q elem => (.done, c.put elem (Function.update c.seq q (c.seq q ++ [elem])))
  | .insertBefore before elem => (.done, c.put elem fun q => putBefore before elem (c.seq q))
  | .remove pelem => (.done, c.take pelem fun q => (c.seq q).erase pelem)
  | .pop q =>
      match c.seq q with
      | [] => (.node none, c)
      | elem :: elems =>
          (.node (some (.elem elem)), c.take elem (Function.update c.seq q elems))
  | .tail q => (.node ((c.seq q).getLast?.map .elem), c)
  | .find q objElem => (.flag (decide (objElem ∈ c.seq q)), c)
  | .traversal q func arg =>
      (.node (((c.seq q).map .elem).find? fun elem => func elem arg), c)
  | .len q => (.length (c.seq q).length, c)
  | .empty q => (.flag (c.seq q).isEmpty, c)

/-- Which calls may come: an element is inserted only while it is in no list, and taken out
only while it is in one. -/
def Permitted (c : Sequences κ ι) : ListOp κ ι → Prop
  | .init _ => True
  | .push q elem | .append q elem => c.live q = true ∧ ∀ q', elem ∉ c.seq q'
  | .insertBefore before elem => (∃ q, before ∈ c.seq q) ∧ ∀ q, elem ∉ c.seq q
  | .remove pelem => ∃ q, pelem ∈ c.seq q
  | .pop q | .tail q => c.seq q ≠ []
  | .find q _ | .traversal q _ _ | .len q | .empty q => c.live q = true

/-- The lists that the call changes. -/
def Works (c : Sequences κ ι) : ListOp κ ι → κ → Prop
  | .init q, q' | .push q _, q' | .append q _, q' | .pop q, q' => q' = q
  | .insertBefore before _, q' => before ∈ c.seq q'
  | .remove pelem, q' => pelem ∈ c.seq q'
  | _, _ => False

/-- The node is a sentinel or an element of a list. -/
def Has (c : Sequences κ ι) : Node κ ι → Prop
  | .head q | .tail q => c.live q = true
  | .elem i => ∃ q, i ∈ c.seq q

end Sequences

variable [DecidableEq κ]

def SequenceStep (c : Sequences κ ι) (a : ListOp κ ι × ListAnswer κ ι) (c' : Sequences κ ι) :
    Prop :=
  c.Permitted a.1 ∧ c.step a.1 = (a.2, c')

namespace Lists

def listStep (s : Lists κ ι) (fuel : ℕ) : ListOp κ ι → Option (ListAnswer κ ι × Lists κ ι)
  | .init q => some (.done, s.listInit q)
  | .push q elem => (s.listPush q elem).map (Prod.map (fun _ => .done) id)
  | .append q elem => (s.listAppend q elem).map (Prod.map (fun _ => .done) id)
  | .insertBefore before elem => (s.listInsertBefore before elem).map (Prod.mk .done)
  | .remove pelem => (s.listRemove pelem).map (Prod.mk .done)
  | .pop q => (s.listPop q).map (Prod.map (fun elem => .node (some (.elem elem))) id)
  | .tail q => (s.listTail q).map (Prod.map .node id)
  | .find q objElem => (s.elemFind fuel q objElem).map fun found => (.flag found, s)
  | .traversal q func arg => (s.listTraversal fuel q func arg).map fun elem => (.node elem, s)
  | .len q => (s.listLen fuel q).map fun length => (.length length, s)
  | .empty q => some (.flag (s.listEmpty q), s)

def Step (fuel : ℕ) (s : Lists κ ι) (a : ListOp κ ι × ListAnswer κ ι) (s' : Lists κ ι) : Prop :=
  s.listStep fuel a.1 = some (a.2, s')

end Lists

/-- The links and the locks are those of the sequences. -/
structure Lists.Refines (s : Lists κ ι) (c : Sequences κ ι) : Prop where
  represents : Represents s.links (fun q => c.live q = true) c.seq
  ends : ∀ q, c.live q = true → s.links.prev (.head q) = none ∧ s.links.next (.tail q) = none
  free : ∀ q, c.live q = true → s.lock q = initlock
  removed : ∀ i, c.removed i = true →
    (∀ q, i ∉ c.seq q) ∧ s.links.next (.elem i) = none ∧ s.links.prev (.elem i) = none

/-- In the nodes of the lists, each link forth has its link back and each link back its link
forth. -/
def MutuallyInverse (s : Lists κ ι) (c : Sequences κ ι) : Prop :=
  ∀ x, c.Has x → ∀ y,
    (s.links.next x = some y → c.Has y ∧ s.links.prev y = some x) ∧
      (s.links.prev x = some y → c.Has y ∧ s.links.next y = some x)

/-- The sentinels of the list with the elements between them. -/
def listNodes (q : κ) (xs : List ι) : List (Node κ ι) := .head q :: (xs.map .elem ++ [.tail q])

/-- The call leaves the lists that it does not work on as they are, with all their links. -/
def OthersUnchanged (c : Sequences κ ι) (op : ListOp κ ι) (s s' : Lists κ ι) : Prop :=
  ∀ q, c.live q = true → ¬ c.Works op q →
    (c.step op).2.seq q = c.seq q ∧ ∀ x ∈ listNodes q (c.seq q),
      s'.links.next x = s.links.next x ∧ s'.links.prev x = s.links.prev x

/-! ## Sequences -/

section
variable {x y : ι} {xs ys : List ι}

theorem putBefore_of_notMem (h : y ∉ xs) : putBefore y x xs = xs := by
  induction xs with
  | nil => rfl
  | cons z xs ih =>
      rw [List.mem_cons, not_or] at h
      rw [putBefore, if_neg (Ne.symm h.1), ih h.2]

theorem putBefore_append (h : y ∉ xs) :
    putBefore y x (xs ++ y :: ys) = xs ++ x :: y :: ys := by
  induction xs with
  | nil => exact if_pos rfl
  | cons z xs ih =>
      rw [List.mem_cons, not_or] at h
      rw [List.cons_append, putBefore, if_neg (Ne.symm h.1), ih h.2]
      rfl

end

omit [DecidableEq ι] in
/-- Elements that lie apart from each other are few. -/
theorem ListElems.length_lt (A : ListElems ι) {xs : List ι} (h : xs.Nodup) :
    xs.length < 2 ^ 32 := by
  have hinj : Function.Injective A.addr := by
    intro i j heq
    by_contra hne
    have hapart := A.apart i j hne
    simp only [listElemSize] at hapart
    omega
  have hsub : xs.map A.addr ⊆ List.range memoryEnd := by
    intro a ha
    obtain ⟨i, -, rfl⟩ := List.mem_map.mp ha
    have hin := A.inMemory i
    simp only [listElemSize] at hin
    exact List.mem_range.mpr (by omega)
  have hle := List.Nodup.length_le_of_subset (h.map hinj) hsub
  rw [List.length_map, List.length_range] at hle
  exact Nat.lt_of_le_of_lt hle (by decide)

variable {s s' : Lists κ ι} {c c' : Sequences κ ι} {q : κ} {i j : ι} {seq : κ → List ι}
  {cpu : Processor} {links : Links (Node κ ι)}

/-! ## What the calls keep -/

omit [DecidableEq κ] in
theorem Lists.Refines.put (h : Lists.Refines s c)
    (hrep : Represents links (fun q => c.live q = true) seq)
    (hkept : OthersKept c.seq i s.links links) (hends : SentinelsKept s.links links)
    (hsub : ∀ q j, j ∈ seq q → j = i ∨ j ∈ c.seq q) :
    Lists.Refines ⟨cpu, s.lock, links⟩ (c.put i seq) := by
  constructor
  case represents => exact hrep
  case ends =>
    intro q hq
    rw [(hends q).1, (hends q).2]
    exact h.ends q hq
  case free => exact h.free
  case removed =>
    intro j hj
    have hne : j ≠ i := by
      rintro rfl
      simp [Sequences.put] at hj
    simp only [Sequences.put, Function.update_of_ne hne] at hj
    obtain ⟨hout, hnext, hprev⟩ := h.removed j hj
    obtain ⟨hn, hp⟩ := hkept j hne hout
    exact ⟨fun q hmem => (hsub q j hmem).elim hne (hout q), hn.trans hnext, hp.trans hprev⟩

omit [DecidableEq κ] in
theorem Lists.Refines.take (h : Lists.Refines s c)
    (hrep : Represents links (fun q => c.live q = true) seq)
    (hnext : links.next (.elem i) = none) (hprev : links.prev (.elem i) = none)
    (hkept : OthersKept c.seq i s.links links) (hends : SentinelsKept s.links links)
    (hout : ∀ q, i ∉ seq q) (hsub : ∀ q, seq q ⊆ c.seq q) :
    Lists.Refines ⟨cpu, s.lock, links⟩ (c.take i seq) := by
  constructor
  case represents => exact hrep
  case ends =>
    intro q hq
    rw [(hends q).1, (hends q).2]
    exact h.ends q hq
  case free => exact h.free
  case removed =>
    intro j hj
    by_cases hji : j = i
    · subst hji
      exact ⟨hout, hnext, hprev⟩
    · simp only [Sequences.take, Function.update_of_ne hji] at hj
      obtain ⟨hjout, hjn, hjp⟩ := h.removed j hj
      obtain ⟨hn, hp⟩ := hkept j hji hjout
      exact ⟨fun q hmem => hjout q (hsub q hmem), hn.trans hjn, hp.trans hjp⟩

omit [DecidableEq κ] [DecidableEq ι] in
/-- A call that changes neither links nor locks. -/
theorem Lists.Refines.sameLinks (h : Lists.Refines s c) : Lists.Refines ⟨cpu, s.lock, s.links⟩ c :=
  ⟨h.represents, h.ends, h.free, h.removed⟩

omit [DecidableEq ι] in
/-- What one list is changed to, and what the others had. -/
theorem mem_update_seq {xs : List ι} {q' : κ} :
    j ∈ Function.update c.seq q xs q' ↔ (q' = q ∧ j ∈ xs) ∨ (q' ≠ q ∧ j ∈ c.seq q') := by
  by_cases heq : q' = q
  · subst heq
    simp
  · simp [heq]

theorem Lists.Refines.listInit (h : Lists.Refines s c) (q : κ) :
    Lists.Refines (s.listInit q) (c.step (.init q)).2 := by
  have hlive : (fun q' => q' = q ∨ c.live q' = true) =
      fun q' => Function.update c.live q true q' = true := by
    funext q'
    by_cases heq : q' = q <;> simp [heq]
  constructor
  case represents => exact hlive ▸ h.represents.reinit q
  case ends =>
    intro q' hq'
    by_cases heq : q' = q
    · simp [heq, Lists.listInit, Links.listInit]
    · simp only [Sequences.step, Function.update_of_ne heq] at hq'
      simpa [Lists.listInit, Links.listInit, heq] using h.ends q' hq'
  case free =>
    intro q' hq'
    by_cases heq : q' = q
    · rw [heq]
      exact Function.update_self q initlock s.lock
    · simp only [Sequences.step, Function.update_of_ne heq] at hq'
      exact (Function.update_of_ne heq initlock s.lock).trans (h.free q' hq')
  case removed =>
    intro i hi
    obtain ⟨hout, hnext, hprev⟩ := h.removed i hi
    refine ⟨fun q' hmem => ?_, ?_, ?_⟩
    · rcases mem_update_seq.mp hmem with ⟨-, hmem⟩ | ⟨-, hmem⟩
      · cases hmem
      · exact hout q' hmem
    · simpa [Lists.listInit, Links.listInit] using hnext
    · simpa [Lists.listInit, Links.listInit] using hprev

theorem Lists.Refines.listPush (h : Lists.Refines s c) (hq : c.live q = true)
    (hi : ∀ q', i ∉ c.seq q') :
    ∃ s', s.listPush q i = some ((), s') ∧ Lists.Refines s' (c.step (.push q i)).2 := by
  obtain ⟨links, hrun, hrep, hkept⟩ := h.represents.push hq hi
  obtain ⟨cpu, hlocked⟩ := Lists.locked_eq (h.free q hq)
    (fun links => (links.listPush q i).map (Prod.mk ())) (by rw [hrun, Option.map_some])
  refine ⟨_, hlocked, h.put hrep hkept (h.represents.push_sentinels hq hrun) fun q' j hj => ?_⟩
  rcases mem_update_seq.mp hj with ⟨rfl, hj⟩ | ⟨-, hj⟩
  · exact List.mem_cons.mp hj
  · exact .inr hj

theorem Lists.Refines.listAppend (h : Lists.Refines s c) (hq : c.live q = true)
    (hi : ∀ q', i ∉ c.seq q') :
    ∃ s', s.listAppend q i = some ((), s') ∧ Lists.Refines s' (c.step (.append q i)).2 := by
  obtain ⟨links, hrun, hrep, hkept⟩ := h.represents.append hq hi
  obtain ⟨cpu, hlocked⟩ := Lists.locked_eq (h.free q hq)
    (fun links => (links.listAppend q i).map (Prod.mk ())) (by rw [hrun, Option.map_some])
  have hends := h.represents.insertBefore_sentinels hq (by simp) hrun
  refine ⟨_, hlocked, h.put hrep hkept hends fun q' j hj => ?_⟩
  rcases mem_update_seq.mp hj with ⟨rfl, hj⟩ | ⟨-, hj⟩
  · rcases List.mem_append.mp hj with hj | hj
    · exact .inr hj
    · exact .inl (List.mem_singleton.mp hj)
  · exact .inr hj

omit [DecidableEq κ] [DecidableEq ι] in
/-- The place of an element: in one list, with no second element of its name before it. -/
theorem Lists.Refines.split (h : Lists.Refines s c) (hj : j ∈ c.seq q) :
    ∃ xs ys, c.seq q = xs ++ j :: ys ∧ j ∉ xs ++ ys := by
  obtain ⟨xs, ys, hsplit⟩ := List.append_of_mem hj
  have hnodup := h.represents.nodup q
  rw [hsplit, List.nodup_middle] at hnodup
  exact ⟨xs, ys, hsplit, (List.nodup_cons.mp hnodup).1⟩

theorem Lists.Refines.putBefore_seq (h : Lists.Refines s c) {xs ys : List ι}
    (hsplit : c.seq q = xs ++ j :: ys) (hj : j ∉ xs ++ ys) :
    (fun q' => putBefore j i (c.seq q')) = Function.update c.seq q (xs ++ i :: j :: ys) := by
  funext q'
  by_cases heq : q' = q
  · rw [heq, Function.update_self, hsplit,
      putBefore_append fun hmem => hj (List.mem_append_left _ hmem)]
  · rw [Function.update_of_ne heq, putBefore_of_notMem]
    intro hmem
    exact heq (h.represents.disjoint q' q j hmem (by simp [hsplit]))

theorem Lists.Refines.erase_seq (h : Lists.Refines s c) {xs ys : List ι}
    (hsplit : c.seq q = xs ++ i :: ys) (hi : i ∉ xs ++ ys) :
    (fun q' => (c.seq q').erase i) = Function.update c.seq q (xs ++ ys) := by
  funext q'
  by_cases heq : q' = q
  · rw [heq, Function.update_self, hsplit, List.erase_append_right _ fun hmem =>
      hi (List.mem_append_left _ hmem), List.erase_cons_head]
  · rw [Function.update_of_ne heq, List.erase_of_not_mem]
    intro hmem
    exact heq (h.represents.disjoint q' q i hmem (by simp [hsplit]))

theorem Lists.Refines.listInsertBefore (h : Lists.Refines s c) (hj : j ∈ c.seq q)
    (hi : ∀ q', i ∉ c.seq q') :
    ∃ s', s.listInsertBefore j i = some s' ∧
      Lists.Refines s' (c.step (.insertBefore j i)).2 := by
  obtain ⟨xs, ys, hsplit, hout⟩ := h.split hj
  obtain ⟨links, hrun, hrep, hkept⟩ := h.represents.insert hsplit hi
  rw [← h.putBefore_seq hsplit hout] at hrep
  have hends := h.represents.insertBefore_sentinels (h.represents.live_of_mem hj)
    (by simp [hj]) hrun
  refine ⟨⟨s.cpu, s.lock, links⟩, by rw [Lists.listInsertBefore, hrun]; rfl,
    h.put hrep hkept hends fun q' k hk => ?_⟩
  rw [congrFun (h.putBefore_seq hsplit hout) q'] at hk
  rcases mem_update_seq.mp hk with ⟨heq, hk⟩ | ⟨-, hk⟩
  · rw [heq, hsplit]
    simp only [List.mem_append, List.mem_cons] at hk ⊢
    tauto
  · exact .inr hk

/-- An element was taken out of its list. -/
theorem Lists.Refines.takeOut (h : Lists.Refines s c) {xs ys : List ι}
    (hsplit : c.seq q = xs ++ i :: ys)
    (hrep : Represents links (fun q => c.live q = true) (Function.update c.seq q (xs ++ ys)))
    (hnext : links.next (.elem i) = none) (hprev : links.prev (.elem i) = none)
    (hkept : OthersKept c.seq i s.links links) (hends : SentinelsKept s.links links) :
    Lists.Refines ⟨cpu, s.lock, links⟩ (c.take i (Function.update c.seq q (xs ++ ys))) := by
  have hi : i ∈ c.seq q := by simp [hsplit]
  have hnodup := h.represents.nodup q
  rw [hsplit, List.nodup_middle] at hnodup
  refine h.take hrep hnext hprev hkept hends (fun q' hmem => ?_) fun q' k hk => ?_
  · rcases mem_update_seq.mp hmem with ⟨-, hmem⟩ | ⟨hne, hmem⟩
    · exact (List.nodup_cons.mp hnodup).1 hmem
    · exact hne (h.represents.disjoint q' q i hmem hi)
  · rcases mem_update_seq.mp hk with ⟨heq, hk⟩ | ⟨-, hk⟩
    · rw [heq, hsplit]
      exact (List.Sublist.append_left (List.sublist_cons_self i ys) xs).subset hk
    · exact hk

theorem Lists.Refines.listRemove (h : Lists.Refines s c) (hi : i ∈ c.seq q) :
    ∃ s', s.listRemove i = some s' ∧ Lists.Refines s' (c.step (.remove i)).2 := by
  obtain ⟨xs, ys, hsplit, hout⟩ := h.split hi
  obtain ⟨links, hrun, hrep, hnext, hprev, hkept⟩ := h.represents.remove hsplit
  refine ⟨⟨s.cpu, s.lock, links⟩, by rw [Lists.listRemove, hrun]; rfl, ?_⟩
  change Lists.Refines _ (c.take i fun q' => (c.seq q').erase i)
  rw [h.erase_seq hsplit hout]
  exact h.takeOut hsplit hrep hnext hprev hkept (h.represents.remove_sentinels hi hrun)

theorem Lists.Refines.listPop (h : Lists.Refines s c) {ys : List ι} (hc : c.seq q = i :: ys) :
    ∃ s', s.listPop q = some (i, s') ∧
      Lists.Refines s' (c.take i (Function.update c.seq q ys)) := by
  have hq := h.represents.live_of_mem (q := q) (i := i) (by simp [hc])
  obtain ⟨links, hrun, hrep, hnext, hprev, hkept⟩ := h.represents.pop hc
  obtain ⟨cpu, hlocked⟩ := Lists.locked_eq (h.free q hq)
    (fun links => links.listPop q) hrun
  have hsplit : c.seq q = [] ++ i :: ys := hc
  exact ⟨_, hlocked, h.takeOut hsplit hrep hnext hprev hkept
    (h.represents.pop_sentinels hc hrun)⟩

/-! ## What the calls return -/

omit [DecidableEq ι] in
theorem Lists.Refines.listTail (h : Lists.Refines s c) (hc : c.seq q ≠ []) :
    ∃ s', s.listTail q = some ((c.seq q).getLast?.map .elem, s') ∧ Lists.Refines s' c := by
  obtain ⟨i, hi⟩ := List.exists_mem_of_ne_nil _ hc
  have hq := h.represents.live_of_mem hi
  have hlast : s.links.prev (.tail q) = (c.seq q).getLast?.map .elem := by
    have hl := h.represents.linked q hq
    rcases List.eq_nil_or_concat (c.seq q) with hnil | ⟨xs, x, hsplit⟩
    · exact absurd hnil hc
    · rw [hsplit, List.concat_eq_append, List.map_append, List.map_singleton] at hl
      rw [hsplit, List.concat_eq_append, List.getLast?_concat]
      exact (Linked.append_iff.mp hl).2.2
  obtain ⟨cpu, hlocked⟩ := Lists.locked_eq (h.free q hq)
    (fun links => some (links.prev (.tail q), links)) rfl
  rw [hlast] at hlocked
  exact ⟨_, hlocked, h.sameLinks⟩

theorem Lists.Refines.elemFind (h : Lists.Refines s c) (hq : c.live q = true) {fuel : ℕ}
    (hfuel : (c.seq q).length < fuel) :
    s.elemFind fuel q i = some (decide (i ∈ c.seq q)) :=
  elemFind_eq (h.represents.linked q hq) hfuel

theorem Lists.Refines.listEmpty (h : Lists.Refines s c) (hq : c.live q = true) :
    s.listEmpty q = (c.seq q).isEmpty := by
  apply Bool.eq_iff_iff.mpr
  rw [List.isEmpty_iff]
  exact h.represents.listEmpty_iff hq

theorem Lists.Refines.listTraversal (h : Lists.Refines s c) (hq : c.live q = true) {fuel : ℕ}
    (hfuel : (c.seq q).length < fuel) (func : Node κ ι → ℤ → Bool) (arg : ℤ) :
    s.listTraversal fuel q func arg =
      some (((c.seq q).map .elem).find? fun elem => func elem arg) := by
  unfold Lists.listTraversal
  split
  case isTrue hempty =>
    rw [(h.represents.listEmpty_iff hq).mp hempty]
    rfl
  case isFalse =>
    exact (h.represents.linked q hq).find_eq (by simp) (by simpa using hfuel)

theorem Lists.Refines.listLen (h : Lists.Refines s c) (A : ListElems ι)
    (hq : c.live q = true) {fuel : ℕ} (hfuel : (c.seq q).length < fuel) :
    s.listLen fuel q = some (c.seq q).length := by
  have hlt := A.length_lt (h.represents.nodup q)
  have hrun := Lists.listLenLoop_eq (n := 0) (h.represents.linked q hq) hfuel (by omega)
  rwa [Nat.zero_add] at hrun

/-! ## Runs -/

/-- Every call that may come returns what the sequences say and keeps the links theirs. -/
theorem Lists.Refines.step (A : ListElems ι) (h : Lists.Refines s c)
    {a : ListOp κ ι × ListAnswer κ ι} (hstep : SequenceStep c a c') :
    ∃ n s', (∀ fuel, n ≤ fuel → Lists.Step fuel s a s') ∧ Lists.Refines s' c' := by
  obtain ⟨op, answer⟩ := a
  obtain ⟨hmay, hanswer⟩ := hstep
  cases op with
  | init q =>
      obtain ⟨rfl, rfl⟩ := Prod.mk.inj hanswer
      exact ⟨0, _, fun _ _ => rfl, h.listInit q⟩
  | push q i =>
      obtain ⟨rfl, rfl⟩ := Prod.mk.inj hanswer
      obtain ⟨s', hrun, h'⟩ := h.listPush hmay.1 hmay.2
      exact ⟨0, s', fun _ _ => by simp [Lists.Step, Lists.listStep, hrun], h'⟩
  | append q i =>
      obtain ⟨rfl, rfl⟩ := Prod.mk.inj hanswer
      obtain ⟨s', hrun, h'⟩ := h.listAppend hmay.1 hmay.2
      exact ⟨0, s', fun _ _ => by simp [Lists.Step, Lists.listStep, hrun], h'⟩
  | insertBefore j i =>
      obtain ⟨rfl, rfl⟩ := Prod.mk.inj hanswer
      obtain ⟨⟨q, hj⟩, hi⟩ := hmay
      obtain ⟨s', hrun, h'⟩ := h.listInsertBefore hj hi
      exact ⟨0, s', fun _ _ => by simp [Lists.Step, Lists.listStep, hrun], h'⟩
  | remove i =>
      obtain ⟨rfl, rfl⟩ := Prod.mk.inj hanswer
      obtain ⟨q, hi⟩ := hmay
      obtain ⟨s', hrun, h'⟩ := h.listRemove hi
      exact ⟨0, s', fun _ _ => by simp [Lists.Step, Lists.listStep, hrun], h'⟩
  | pop q =>
      cases hc : c.seq q with
      | nil => exact absurd hc hmay
      | cons i ys =>
          simp only [Sequences.step, hc] at hanswer
          obtain ⟨rfl, rfl⟩ := Prod.mk.inj hanswer
          obtain ⟨s', hrun, h'⟩ := h.listPop hc
          exact ⟨0, s', fun _ _ => by simp [Lists.Step, Lists.listStep, hrun], h'⟩
  | tail q =>
      obtain ⟨rfl, rfl⟩ := Prod.mk.inj hanswer
      obtain ⟨s', hrun, h'⟩ := h.listTail hmay
      exact ⟨0, s', fun _ _ => by simp [Lists.Step, Lists.listStep, hrun], h'⟩
  | find q i =>
      obtain ⟨rfl, rfl⟩ := Prod.mk.inj hanswer
      refine ⟨(c.seq q).length + 1, s, fun fuel hfuel => ?_, h⟩
      simp [Lists.Step, Lists.listStep, h.elemFind hmay hfuel]
  | traversal q func arg =>
      obtain ⟨rfl, rfl⟩ := Prod.mk.inj hanswer
      refine ⟨(c.seq q).length + 1, s, fun fuel hfuel => ?_, h⟩
      simp only [Lists.Step, Lists.listStep, h.listTraversal hmay hfuel func arg, Option.map_some]
  | len q =>
      obtain ⟨rfl, rfl⟩ := Prod.mk.inj hanswer
      refine ⟨(c.seq q).length + 1, s, fun fuel hfuel => ?_, h⟩
      simp [Lists.Step, Lists.listStep, h.listLen A hmay hfuel]
  | empty q =>
      obtain ⟨rfl, rfl⟩ := Prod.mk.inj hanswer
      exact ⟨0, s, fun _ _ => by simp [Lists.Step, Lists.listStep, h.listEmpty hmay], h⟩

omit [DecidableEq κ] [DecidableEq ι] in
theorem Lists.Refines.has_iff (h : Lists.Refines s c) {x : Node κ ι} :
    c.Has x ↔ ∃ q, c.live q = true ∧ x ∈ listNodes q (c.seq q) := by
  cases x with
  | head q => simp [Sequences.Has, listNodes]
  | tail q => simp [Sequences.Has, listNodes]
  | elem i =>
      simp only [Sequences.Has, listNodes, List.mem_cons, List.mem_append, List.mem_map,
        Node.elem.injEq, exists_eq_right, List.not_mem_nil, or_false, reduceCtorEq, false_or]
      exact ⟨fun ⟨q, hi⟩ => ⟨q, h.represents.live_of_mem hi, hi⟩, fun ⟨q, _, hi⟩ => ⟨q, hi⟩⟩

omit [DecidableEq κ] [DecidableEq ι] in
theorem Lists.Refines.mutuallyInverse (h : Lists.Refines s c) : MutuallyInverse s c := by
  intro x hx y
  obtain ⟨q, hq, hx⟩ := h.has_iff.mp hx
  have hl := h.represents.linked q hq
  obtain ⟨hhead, htail⟩ := h.ends q hq
  constructor
  case left =>
    intro hnext
    rw [listNodes, ← List.cons_append] at hx
    rcases List.mem_append.mp hx with hx | hx
    · obtain ⟨z, hz, hforth, hback⟩ := hl.next_mem hx
      obtain rfl := Option.some.inj (hforth.symm.trans hnext)
      exact ⟨h.has_iff.mpr ⟨q, hq, List.mem_cons_of_mem _ hz⟩, hback⟩
    · rw [List.mem_singleton.mp hx, htail] at hnext
      cases hnext
  case right =>
    intro hprev
    rcases List.mem_cons.mp hx with rfl | hx
    · rw [hhead] at hprev
      cases hprev
    · obtain ⟨z, hz, hback, hforth⟩ := hl.prev_mem hx
      obtain rfl := Option.some.inj (hback.symm.trans hprev)
      refine ⟨h.has_iff.mpr ⟨q, hq, ?_⟩, hforth⟩
      rw [listNodes, ← List.cons_append]
      exact List.mem_append_left _ hz

theorem Sequences.live_step (op : ListOp κ ι) (hq : c.live q = true) :
    (c.step op).2.live q = true := by
  cases op with
  | init q' =>
      by_cases heq : q = q'
      · rw [heq]
        exact Function.update_self q' true c.live
      · exact (Function.update_of_ne heq true c.live).trans hq
  | pop q' =>
      cases hc : c.seq q' with
      | nil => simpa only [Sequences.step, hc] using hq
      | cons i ys => simpa only [Sequences.step, hc, Sequences.take_live] using hq
  | _ => exact hq

/-- The sequences that a call does not work on stay as they are. -/
theorem Sequences.seq_step {op : ListOp κ ι} (hq : ¬ c.Works op q) :
    (c.step op).2.seq q = c.seq q := by
  cases op with
  | init q' => exact Function.update_of_ne hq [] c.seq
  | push q' i => exact Function.update_of_ne hq _ c.seq
  | append q' i => exact Function.update_of_ne hq _ c.seq
  | insertBefore j i => exact putBefore_of_notMem hq
  | remove i => exact List.erase_of_not_mem hq
  | pop q' =>
      cases hc : c.seq q' with
      | nil => simp only [Sequences.step, hc]
      | cons i ys =>
          simp only [Sequences.step, hc, Sequences.take_seq]
          exact Function.update_of_ne hq ys c.seq
  | _ => rfl

/-- Links that are those of the same sequence are the same. -/
theorem Lists.Refines.othersUnchanged {op : ListOp κ ι} (h : Lists.Refines s c)
    (h' : Lists.Refines s' (c.step op).2) : OthersUnchanged c op s s' := by
  intro q hq hop
  have hseq := Sequences.seq_step hop
  have hq' := Sequences.live_step op hq
  have hl' := h'.represents.linked q hq'
  rw [hseq] at hl'
  obtain ⟨hnext, hprev⟩ := (h.represents.linked q hq).links_eq hl'
  obtain ⟨hhead, htail⟩ := h.ends q hq
  obtain ⟨hhead', htail'⟩ := h'.ends q hq'
  refine ⟨hseq, fun x hx => ⟨?_, ?_⟩⟩
  · rw [listNodes, ← List.cons_append] at hx
    rcases List.mem_append.mp hx with hx | hx
    · exact hnext x hx
    · rw [List.mem_singleton.mp hx, htail, htail']
  · rcases List.mem_cons.mp hx with rfl | hx
    · rw [hhead, hhead']
    · exact hprev x hx

omit [DecidableEq κ] [DecidableEq ι] in
/-- Before any list is initialised, nothing is said of the memory. -/
theorem Lists.Refines.start (s : Lists κ ι) : Lists.Refines s Sequences.start where
  represents :=
    { linked := fun _ hq => absurd hq Bool.false_ne_true
      dead := fun _ _ => rfl
      nodup := fun _ => List.nodup_nil
      disjoint := fun _ _ _ hi => absurd hi List.not_mem_nil }
  ends := fun _ hq => absurd hq Bool.false_ne_true
  free := fun _ hq => absurd hq Bool.false_ne_true
  removed := fun _ hi => absurd hi Bool.false_ne_true

/-- Lists of any number, with the calls that work on them in any order, from a memory in
which nothing is initialised: with enough fuel every call returns, and returns what the
sequences say; the links are those of the sequences, forth and back, an element that was
taken out has none, and each further call keeps this and leaves the other lists alone. -/
theorem lists_refine_sequences (A : ListElems ι) (s : Lists κ ι)
    {as : List (ListOp κ ι × ListAnswer κ ι)} {c : Sequences κ ι}
    (hrun : Run SequenceStep .start as c) :
    ∃ n s', (∀ fuel, n ≤ fuel → Run (Lists.Step fuel) s as s') ∧
      Lists.Refines s' c ∧ MutuallyInverse s' c ∧
      ∀ a c', SequenceStep c a c' → ∃ n s'', (∀ fuel, n ≤ fuel → Lists.Step fuel s' a s'') ∧
        Lists.Refines s'' c' ∧ MutuallyInverse s'' c' ∧ OthersUnchanged c a.1 s' s'' := by
  obtain ⟨n, s', hs', h⟩ := hrun.follow
    (fun _ _ _ _ h hstep => Lists.Refines.step A h hstep) (Lists.Refines.start s)
  refine ⟨n, s', hs', h, h.mutuallyInverse, fun a c' hstep => ?_⟩
  obtain ⟨m, s'', hs'', h'⟩ := h.step A hstep
  obtain ⟨-, hanswer⟩ := hstep
  have hc' : (c.step a.1).2 = c' := congrArg Prod.snd hanswer
  exact ⟨m, s'', hs'', h', h'.mutuallyInverse, h.othersUnchanged (hc' ▸ h')⟩

/-- Two lists in turn: an element goes to the front of the first, one to its end, one
between them, and the last leaves it for the second. -/
theorem lists_refine_sequences_two_lists :
    ∃ n s', Run (Lists.Step n)
      (⟨⟨0, false, 0, false⟩, fun _ => initlock, ⟨fun _ => none, fun _ => none⟩⟩ :
        Lists Bool (Fin 3))
      [(.init false, .done), (.init true, .done), (.push false 0, .done),
        (.append false 1, .done), (.insertBefore 1 2, .done), (.len false, .length 3),
        (.tail false, .node (some (.elem 1))), (.remove 1, .done), (.push true 1, .done),
        (.pop false, .node (some (.elem 0))), (.find true 1, .flag true)] s' ∧
      s'.links.next (.elem 0) = none := by
  have hrun : ∃ c : Sequences Bool (Fin 3), Run SequenceStep .start
      [(.init false, .done), (.init true, .done), (.push false 0, .done),
        (.append false 1, .done), (.insertBefore 1 2, .done), (.len false, .length 3),
        (.tail false, .node (some (.elem 1))), (.remove 1, .done), (.push true 1, .done),
        (.pop false, .node (some (.elem 0))), (.find true 1, .flag true)] c ∧
      c.removed 0 = true := by
    exact ⟨_, .step ⟨trivial, rfl⟩ <| .step ⟨trivial, rfl⟩ <|
      .step ⟨⟨rfl, by decide⟩, rfl⟩ <| .step ⟨⟨rfl, by decide⟩, rfl⟩ <|
      .step ⟨⟨⟨false, by decide⟩, by decide⟩, rfl⟩ <| .step ⟨rfl, rfl⟩ <|
      .step ⟨List.cons_ne_nil _ _, rfl⟩ <| .step ⟨⟨false, by decide⟩, rfl⟩ <|
      .step ⟨⟨rfl, by decide⟩, rfl⟩ <| .step ⟨List.cons_ne_nil _ _, rfl⟩ <|
      .step ⟨rfl, rfl⟩ (.done _), rfl⟩
  obtain ⟨c, hrun, hremoved⟩ := hrun
  obtain ⟨n, s', hs', h, -⟩ := lists_refine_sequences
    ⟨fun i : Fin 3 => 0x80400000 + 16 * i, by decide, by decide⟩
    ⟨⟨0, false, 0, false⟩, fun _ => initlock, ⟨fun _ => none, fun _ => none⟩⟩ hrun
  exact ⟨n, s', hs' n (Nat.le_refl n), (h.removed 0 hremoved).2.1⟩

end K210Os
