import K210Os.MachineInt
import K210Os.SentinelLists
import K210Os.Spinlock

/-!
# The kernel's lists

The functions on lists, with the lock of each list and the hart that takes it. `none` is
an access through a null link, a lock that cannot be taken or released, or a walk that has
not ended with the fuel it has.
-/

namespace K210Os

open DoublyLinked MachineInt

structure Lists (κ ι : Type*) where
  cpu : Processor
  lock : κ → Spinlock
  links : Links (Node κ ι)

namespace Lists

variable {κ ι α : Type*} [DecidableEq κ]

/-- The body of a function between `acquire` and `release` of the lock of the list. -/
def locked (s : Lists κ ι) (q : κ)
    (body : Links (Node κ ι) → Option (α × Links (Node κ ι))) : Option (α × Lists κ ι) :=
  (acquire s.cpu (s.lock q)).bind fun held =>
    (body s.links).bind fun result =>
      (release held.1 held.2).map fun freed =>
        (result.1, ⟨freed.1, Function.update s.lock q freed.2, result.2⟩)

/-- A function under a lock that is free does what its body does, and leaves the lock
free. -/
theorem locked_eq {s : Lists κ ι} {q : κ} (hfree : s.lock q = initlock)
    (body : Links (Node κ ι) → Option (α × Links (Node κ ι))) {r : α}
    {links : Links (Node κ ι)} (hbody : body s.links = some (r, links)) :
    ∃ cpu, s.locked q body = some (r, ⟨cpu, s.lock, links⟩) := by
  obtain ⟨cpu, hrelease, -, -⟩ := release_pushOff s.cpu
  have hlock : Function.update s.lock q ⟨false, none⟩ = s.lock := by
    rw [show (⟨false, none⟩ : Spinlock) = s.lock q from hfree.symm, Function.update_eq_self]
  refine ⟨cpu, ?_⟩
  have hunlocked : (s.lock q).locked = false := by rw [hfree, initlock]
  have hacquire := acquire_of_unlocked s.cpu hunlocked
  simp only [locked, hacquire, hbody, hrelease, hlock, Option.bind_some, Option.map_some]

variable [DecidableEq ι]

def listInit (s : Lists κ ι) (q : κ) : Lists κ ι :=
  { s with lock := Function.update s.lock q initlock, links := s.links.listInit q }

/-- `list_insert_before` with an element as its place. -/
def listInsertBefore (s : Lists κ ι) (before elem : ι) : Option (Lists κ ι) :=
  (s.links.insertBefore (.elem before) (.elem elem)).map fun links => { s with links := links }

def listPush (s : Lists κ ι) (q : κ) (elem : ι) : Option (Unit × Lists κ ι) :=
  s.locked q fun links => (links.listPush q elem).map (Prod.mk ())

def listAppend (s : Lists κ ι) (q : κ) (elem : ι) : Option (Unit × Lists κ ι) :=
  s.locked q fun links => (links.listAppend q elem).map (Prod.mk ())

def listRemove (s : Lists κ ι) (pelem : ι) : Option (Lists κ ι) :=
  (s.links.remove (.elem pelem)).map fun links => { s with links := links }

def listPop (s : Lists κ ι) (q : κ) : Option (ι × Lists κ ι) :=
  s.locked q fun links => links.listPop q

def listTail (s : Lists κ ι) (q : κ) : Option (Option (Node κ ι) × Lists κ ι) :=
  s.locked q fun links => some (links.prev (.tail q), links)

def elemFind (s : Lists κ ι) (fuel : ℕ) (q : κ) (objElem : ι) : Option Bool :=
  (s.links.next (.head q)).bind fun elem => s.links.elemFind q objElem fuel elem

/-- The first element that `func` takes, or null. -/
def listTraversal (s : Lists κ ι) (fuel : ℕ) (q : κ) (func : Node κ ι → ℤ → Bool) (arg : ℤ) :
    Option (Option (Node κ ι)) :=
  if s.links.listEmpty q then some none
  else (s.links.next (.head q)).bind fun elem =>
    s.links.find (.tail q) (fun elem => func elem arg) fuel elem

def listLenLoop (s : Lists κ ι) (q : κ) : ℕ → Node κ ι → ℕ → Option ℕ
  | 0, _, _ => none
  | fuel + 1, elem, length =>
      if elem = .tail q then some length
      else (s.links.next elem).bind fun elem => listLenLoop s q fuel elem (toUint32 (length + 1))

def listLen (s : Lists κ ι) (fuel : ℕ) (q : κ) : Option ℕ :=
  (s.links.next (.head q)).bind fun elem => s.listLenLoop q fuel elem 0

def listEmpty (s : Lists κ ι) (q : κ) : Bool := s.links.listEmpty q

variable {q : κ} {a : Node κ ι} {xs : List ι} {s : Lists κ ι}

theorem listLenLoop_eq {fuel n : ℕ} (h : Linked s.links a (xs.map .elem) (.tail q))
    (hfuel : xs.length < fuel) (hlt : n + xs.length < 2 ^ 32) :
    ((s.links.next a).bind fun elem => s.listLenLoop q fuel elem n) = some (n + xs.length) := by
  induction xs generalizing a fuel n with
  | nil =>
      obtain ⟨fuel, rfl⟩ := Nat.exists_eq_add_one_of_ne_zero (by omega : fuel ≠ 0)
      rw [h.1, Option.bind_some, listLenLoop, if_pos rfl]
      rfl
  | cons x xs ih =>
      obtain ⟨fuel, rfl⟩ := Nat.exists_eq_add_one_of_ne_zero (by omega : fuel ≠ 0)
      obtain ⟨hn, -, h⟩ := h
      rw [List.length_cons] at hfuel hlt
      have hcount : toUint32 ((n : ℤ) + 1) = n + 1 := by
        have hnarrow := toUint32_of_lt (i := n + 1) (by omega)
        rwa [Int.natCast_succ] at hnarrow
      rw [hn, Option.bind_some, listLenLoop, if_neg (by simp), hcount,
        ih h (by omega) (by omega), List.length_cons]
      congr 1
      omega

end Lists

end K210Os
