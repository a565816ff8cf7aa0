import K210Os.BufferCache
import Mathlib.Data.Fintype.Card

/-!
# The buffer cache is a plain array of sectors

The list holds every buffer once, in the order of release, no two buffers have one key,
and a buffer that is read has the bytes last written to its sector, as long as no sector
number is read under two device numbers.
-/

namespace K210Os

open DoublyLinked Transition

namespace Bcache

variable {L : Links BufNode} {order xs ys : List (Fin nbuf)} {i j : Fin nbuf} {s : Bcache}
  {mytask : Option ℕ} {dbrSec dev sectorno : BitVec 32}

/-! ## The circular list -/

theorem buf_injective : Function.Injective BufNode.buf := fun _ _ h => BufNode.buf.inj h

theorem ring_nodup (h : order.Nodup) :
    (BufNode.head :: order.map .buf).Nodup ∧ BufNode.head ∉ order.map BufNode.buf :=
  ⟨List.nodup_cons.mpr ⟨by simp, h.map buf_injective⟩, by simp⟩

theorem linkFront_eq {n : BufNode} (hn : L.next .head = some n) (hp : L.prev n = some .head) :
    linkFront L i = L.insertBefore n (.buf i) := by
  simp only [linkFront, Links.insertBefore, hn, hp, Option.map_some, Links.setNext, Links.setPrev]
  rw [Function.update_comm (by simp : BufNode.buf i ≠ .head)]

theorem linkFront_linked (h : Linked L .head (order.map .buf) .head) (hnodup : order.Nodup)
    (hi : i ∉ order) :
    ∃ L', linkFront L i = some L' ∧ Linked L' .head ((i :: order).map .buf) .head := by
  obtain ⟨hring, hhead⟩ := ring_nodup hnodup
  have hnew : BufNode.buf i ∉ .head :: order.map BufNode.buf := by
    simpa [List.mem_map_of_injective buf_injective] using hi
  cases order with
  | nil =>
      obtain ⟨L', hrun, hl, -⟩ := h.insert_end hring hhead hnew (by simp)
      exact ⟨L', (linkFront_eq h.1 h.2).trans hrun, hl⟩
  | cons j order =>
      obtain ⟨L', hrun, hl, -⟩ := Linked.insert_before
        (show Linked L .head ([] ++ .buf j :: order.map .buf) .head from h) hring hhead hnew (by simp)
      exact ⟨L', (linkFront_eq h.1 h.2.1).trans hrun, hl⟩

theorem unlink_linked (h : Linked L .head ((xs ++ i :: ys).map .buf) .head)
    (hnodup : (xs ++ i :: ys).Nodup) :
    ∃ L', unlink L i = some L' ∧ Linked L' .head ((xs ++ ys).map .buf) .head := by
  obtain ⟨hring, hhead⟩ := ring_nodup hnodup
  have hi : i ∉ xs ++ ys := (List.nodup_middle.mp hnodup).notMem
  rw [List.map_append, List.map_cons] at h hring hhead
  obtain ⟨L₁, hrun, hl, -⟩ := h.remove hring hhead
  simp only [Links.remove, Option.bind_eq_bind, Option.bind_eq_some_iff, Option.pure_def,
    Option.some.injEq] at hrun
  obtain ⟨p, hp, n, hn, rfl⟩ := hrun
  have hne : ∀ x ∈ (xs ++ ys).map BufNode.buf, x ≠ .buf i := by
    intro x hx heq
    rw [heq, List.mem_map_of_injective buf_injective] at hx
    exact hi hx
  refine ⟨(L.setPrev n p).setNext p n, by simp [unlink, hp, hn], ?_⟩
  rw [← List.map_append] at hl
  refine hl.congr (fun x hx => ?_) fun x hx => ?_
  · have hx : x ≠ .buf i := by
      rcases List.mem_cons.mp hx with rfl | hx
      · simp
      · exact hne x hx
    simp [hx]
  · have hx : x ≠ .buf i := by
      rcases List.mem_append.mp hx with hx | hx
      · exact hne x hx
      · simp [List.mem_singleton.mp hx]
    simp [hx]

theorem cached_eq (h : Linked s.links .head (order.map .buf) .head) (hnodup : order.Nodup)
    (dev sectorno : BitVec 32) :
    s.cached dev sectorno =
      some ((order.find? fun i => decide (s.key i = (dev, sectorno))).map .buf) := by
  have hlen : (order.map BufNode.buf).length < nbuf + 1 := by
    rw [List.length_map]
    exact Nat.lt_succ_of_le (by simpa using hnodup.length_le_card)
  rw [cached, h.find_eq (ring_nodup hnodup).2 hlen, List.find?_map]
  simp only [Function.comp_def, key, Prod.mk.injEq]

theorem leastRecent_eq (h : Linked s.links .head (order.map .buf) .head) (hnodup : order.Nodup) :
    s.leastRecent =
      some ((order.reverse.find? fun i => decide ((s.buf i).refcnt = 0)).map .buf) := by
  have hlen : (order.map BufNode.buf).reverse.length < nbuf + 1 := by
    rw [List.length_reverse, List.length_map]
    exact Nat.lt_succ_of_le (by simpa using hnodup.length_le_card)
  have hback : s.links.prev .head = s.links.flip.next .head := rfl
  rw [leastRecent, hback, h.flip.find_eq (by simp) hlen, ← List.map_reverse, List.find?_map]
  simp only [Function.comp_def]

/-! ## `binit` -/

theorem foldlM_binitOne (l : List (Fin nbuf)) (h : Linked s.links .head (order.map .buf) .head)
    (hnodup : (l.reverse ++ order).Nodup) :
    ∃ s', l.foldlM binitOne s = some s' ∧ s'.disk = s.disk ∧
      Linked s'.links .head ((l.reverse ++ order).map .buf) .head ∧
      (∀ i ∉ l, s'.buf i = s.buf i) ∧
      ∀ i ∈ l, (s'.buf i).refcnt = 0 ∧ (s'.buf i).lock = semInit 1 ∧ s'.key i = (~~~0, ~~~0) := by
  induction l generalizing s order with
  | nil => exact ⟨s, rfl, rfl, h, fun _ _ => rfl, by simp⟩
  | cons i l ih =>
      rw [List.reverse_cons, List.append_assoc, List.singleton_append] at hnodup ⊢
      have hnodup' := (List.nodup_append.mp hnodup).2.1
      obtain ⟨hi, hnodup₁⟩ := List.nodup_cons.mp hnodup'
      have hil : i ∉ l := fun hmem =>
        (List.nodup_append.mp hnodup).2.2 i (List.mem_reverse.mpr hmem) i (by simp) rfl
      obtain ⟨L', hlink, hl⟩ := linkFront_linked h hnodup₁ hi
      let s₁ : Bcache :=
        { s.setBuf i
            { s.buf i with refcnt := 0, sectorno := ~~~0, dev := ~~~0, lock := semInit 1 }
          with links := L' }
      have hone : binitOne s i = some s₁ := by simp only [binitOne, hlink, Option.map_some, s₁]
      obtain ⟨s', hrun, hdisk, hlinked, hkept, hfresh⟩ := ih (s := s₁) hl hnodup
      refine ⟨s', ?_, hdisk, hlinked, fun j hj => ?_, fun j hj => ?_⟩
      · rw [List.foldlM_cons, hone]
        exact hrun
      · rw [List.mem_cons, not_or] at hj
        rw [hkept j hj.2]
        exact Function.update_of_ne hj.1 _ _
      · rcases List.mem_cons.mp hj with rfl | hj
        · simp [key, hkept j hil, s₁, setBuf]
        · exact hfresh j hj

theorem binit_eq (disk : BitVec 32 → Sector) :
    ∃ (s : Bcache) (order : List (Fin nbuf)), (boot disk).binit = some s ∧ s.disk = disk ∧
      order.Nodup ∧ (∀ i, i ∈ order) ∧
      Linked s.links .head (order.map .buf) .head ∧
      ∀ i, (s.buf i).refcnt = 0 ∧ (s.buf i).lock = semInit 1 ∧ s.key i = (~~~0, ~~~0) := by
  let s₀ : Bcache :=
    { boot disk with
      links := ((boot disk).links.setPrev .head (some .head)).setNext .head (some .head) }
  have hempty : Linked s₀.links .head (([] : List (Fin nbuf)).map .buf) .head := by
    simp [Linked, s₀]
  have hnodup : ((List.finRange nbuf).reverse ++ []).Nodup := by
    simpa using List.nodup_finRange nbuf
  obtain ⟨s, hrun, hdisk, hl, -, hfresh⟩ := foldlM_binitOne (List.finRange nbuf) hempty hnodup
  exact ⟨s, _, hrun, hdisk, hnodup, by simp, hl, fun i => hfresh i (List.mem_finRange i)⟩

/-! ## The buffer's semaphore -/

/-- A semaphore that is taken by `mytask`, or that is free. -/
def LockOk (mytask : Option ℕ) (held : Bool) (lock : Semaphore) : Prop :=
  lock.value = (if held then 0 else 1) ∧ lock.waiters = [] ∧
    (held = true → ∀ pid, mytask = some pid → lock.pid = pid)

theorem LockOk.semWait {lock : Semaphore} (h : LockOk mytask false lock) :
    ∃ lock', lock.semWait mytask = some lock' ∧ LockOk mytask true lock' := by
  obtain ⟨hvalue, hwaiters, -⟩ := h
  refine ⟨{ lock with value := 0, pid := mytask.getD lock.pid }, ?_, rfl, hwaiters, ?_⟩
  · simp [Semaphore.semWait, hvalue]
  · rintro - pid rfl
    rfl

theorem LockOk.semSignal {lock : Semaphore} (h : LockOk mytask true lock) :
    ∃ lock', lock.semSignal = some lock' ∧ LockOk mytask false lock' := by
  obtain ⟨hvalue, hwaiters, -⟩ := h
  exact ⟨{ lock with value := 1, pid := 0 }, by simp [Semaphore.semSignal, hvalue, hwaiters], rfl,
    hwaiters, by simp⟩

theorem LockOk.semHold {lock : Semaphore} (h : LockOk mytask true lock) :
    lock.semHold mytask = true := by
  obtain ⟨hvalue, -, hpid⟩ := h
  cases mytask with
  | none => simp [Semaphore.semHold, hvalue]
  | some pid => simp [Semaphore.semHold, hvalue, hpid rfl pid rfl]

@[simp] theorem setBuf_setBuf (s : Bcache) (i : Fin nbuf) (b b' : Buf) :
    (s.setBuf i b).setBuf i b' = s.setBuf i b' := by
  simp [setBuf]

@[simp] theorem setBuf_same (s : Bcache) (i : Fin nbuf) (b : Buf) : (s.setBuf i b).buf i = b :=
  Function.update_self ..

theorem setBuf_of_ne {b : Buf} (h : j ≠ i) : (s.setBuf i b).buf j = s.buf j :=
  Function.update_of_ne h ..

end Bcache

namespace CacheRun

open Bcache

variable {s s' : CacheRun} {order : List (Fin nbuf)} {i j : Fin nbuf} {mytask : Option ℕ}
  {dbrSec dev sectorno : BitVec 32} {devOf : BitVec 32 → BitVec 32}

/-! ## The invariant -/

/-- `order` is the list, which stands in the order of release. -/
structure CacheOk (mytask : Option ℕ) (s : CacheRun) (order : List (Fin nbuf)) : Prop where
  linked : Linked s.cache.links .head (order.map .buf) .head
  nodup : order.Nodup
  all : ∀ i, i ∈ order
  sorted : order.Pairwise fun i j => s.released j ≤ s.released i
  clock : ∀ i, s.released i ≤ s.clock
  refcnt : ∀ i, (s.cache.buf i).refcnt = if s.held i then 1 else 0
  lock : ∀ i, LockOk mytask (s.held i) (s.cache.buf i).lock
  keys : ∀ i j, s.cache.key i = s.cache.key j → s.cache.key i ≠ (~~~0, ~~~0) → i = j
  assigned : ∀ i, s.held i = true → s.cache.key i ≠ (~~~0, ~~~0)
  changed : ∀ i, s.changed i = true → s.held i = true

/-- The array is on the card, and the buffers agree with it, except where the data were
changed and not yet written. -/
structure ReadsOk (dbrSec : BitVec 32) (devOf : BitVec 32 → BitVec 32) (s : CacheRun) : Prop where
  array : ∀ sectorno, s.array sectorno = s.cache.disk (sectorno + dbrSec)
  dev : ∀ i, s.cache.key i ≠ (~~~0, ~~~0) →
    (s.cache.buf i).dev = devOf (s.cache.buf i).sectorno
  data : ∀ i, s.cache.key i ≠ (~~~0, ~~~0) → (s.cache.buf i).valid = true ∧
    (s.changed i = false → (s.cache.buf i).data = s.array (s.cache.buf i).sectorno)

theorem CacheOk.refcnt_eq_zero_iff (h : CacheOk mytask s order) (i : Fin nbuf) :
    (s.cache.buf i).refcnt = 0 ↔ s.held i = false := by
  rw [h.refcnt]
  cases s.held i <;> simp

/-- The buffer that is recycled is the last one in the list that nobody holds. -/
theorem CacheOk.leastRecent (h : CacheOk mytask s order) (hfree : ∃ i, s.held i = false) :
    ∃ i, s.cache.leastRecent = some (some (.buf i)) ∧ s.held i = false ∧
      ∀ j, s.held j = false → s.released i ≤ s.released j := by
  rw [leastRecent_eq h.linked h.nodup]
  cases hfind : order.reverse.find? fun i => decide ((s.cache.buf i).refcnt = 0) with
  | none =>
      obtain ⟨i, hi⟩ := hfree
      have hnot := List.find?_eq_none.mp hfind i (List.mem_reverse.mpr (h.all i))
      rw [decide_eq_true_iff, h.refcnt_eq_zero_iff] at hnot
      exact absurd hi hnot
  | some i =>
      obtain ⟨hi, xs, ys, horder, hxs⟩ := List.find?_eq_some_iff_append.mp hfind
      rw [decide_eq_true_iff, h.refcnt_eq_zero_iff] at hi
      refine ⟨i, rfl, hi, fun j hj => ?_⟩
      have hsplit : order = ys.reverse ++ i :: xs.reverse := by
        rw [← List.reverse_reverse order, horder]
        simp
      have hsorted := h.sorted
      rw [hsplit, List.pairwise_append] at hsorted
      have hmem := h.all j
      rw [hsplit, List.mem_append, List.mem_cons, List.mem_reverse, List.mem_reverse] at hmem
      rcases hmem with hmem | rfl | hmem
      · exact hsorted.2.2 j (List.mem_reverse.mpr hmem) i (by simp)
      · exact le_rfl
      · have hheld := hxs j hmem
        rw [(h.refcnt_eq_zero_iff j).mpr hj] at hheld
        simp at hheld

/-- The buffer that `bread` delivers has the key that was asked for; it had it before, or
no buffer had it, and it is the free one that was released first. -/
theorem CacheOk.bread_eq (h : CacheOk mytask s order) (dbrSec : BitVec 32)
    (hp : s.Permitted (.bread dev sectorno)) :
    ∃ i b, s.cache.bread mytask dbrSec dev sectorno = some (i, s.cache.setBuf i b) ∧
      s.held i = false ∧ b.valid = true ∧ b.dev = dev ∧ b.sectorno = sectorno ∧ b.refcnt = 1 ∧
      LockOk mytask true b.lock ∧
      (s.cache.key i = (dev, sectorno) ∧ ((s.cache.buf i).valid = true → b.data = (s.cache.buf i).data) ∨
        (∀ j, s.cache.key j ≠ (dev, sectorno)) ∧ b.data = s.cache.disk (sectorno + dbrSec) ∧
          ∀ j, s.held j = false → s.released i ≤ s.released j) := by
  obtain ⟨-, hfree, hnot⟩ := hp
  cases hfind : order.find? fun i => decide (s.cache.key i = (dev, sectorno)) with
  | some i =>
      have hkey : s.cache.key i = (dev, sectorno) := by simpa using List.find?_some hfind
      have hheld : s.held i = false := by
        by_contra hne
        exact hnot i (by simpa using hne) hkey
      obtain ⟨lock, hwait, hlock⟩ := (hheld ▸ h.lock i).semWait
      obtain ⟨rfl, rfl⟩ := Prod.mk.inj hkey
      have hrefcnt : (s.cache.buf i).refcnt + 1 = 1 := by
        rw [(h.refcnt_eq_zero_iff i).mpr hheld]
        rfl
      have hget : s.cache.bget mytask (s.cache.buf i).dev (s.cache.buf i).sectorno =
          some (i, s.cache.setBuf i { s.cache.buf i with refcnt := 1, lock }) := by
        simp only [bget, cached_eq h.linked h.nodup, hfind, Option.map_some, Option.bind_some,
          lockBuf, setBuf_same, hwait, setBuf_setBuf, hrefcnt]
      by_cases hvalid : (s.cache.buf i).valid = true
      · refine ⟨i, { s.cache.buf i with refcnt := 1, lock }, ?_, hheld, hvalid, rfl, rfl, rfl, hlock,
          .inl ⟨hkey, fun _ => rfl⟩⟩
        simp [Bcache.bread, hget, hvalid]
      · refine ⟨i, ⟨true, _, _, lock, 1, s.cache.disk ((s.cache.buf i).sectorno + dbrSec)⟩, ?_, hheld,
          rfl, rfl, rfl, rfl, hlock, .inl ⟨hkey, fun hv => absurd hv hvalid⟩⟩
        simp [Bcache.bread, hget, hvalid, diskRead, setBuf]
  | none =>
      have hmiss : ∀ j, s.cache.key j ≠ (dev, sectorno) := fun j => by
        simpa using List.find?_eq_none.mp hfind j (h.all j)
      obtain ⟨i, hlast, hheld, hlru⟩ := h.leastRecent hfree
      obtain ⟨lock, hwait, hlock⟩ := (hheld ▸ h.lock i).semWait
      refine ⟨i, ⟨true, dev, sectorno, lock, 1, s.cache.disk (sectorno + dbrSec)⟩, ?_, hheld, rfl,
        rfl, rfl, rfl, hlock, .inr ⟨hmiss, rfl, hlru⟩⟩
      simp [Bcache.bread, bget, cached_eq h.linked h.nodup, hfind, hlast, lockBuf, hwait, diskRead,
        setBuf]

/-! ## The steps -/

theorem key_setBuf (s : Bcache) (i j : Fin nbuf) (b : Buf) :
    (s.setBuf i b).key j = if j = i then (b.dev, b.sectorno) else s.key j := by
  by_cases hj : j = i
  · subst hj
    simp [key]
  · simp [key, setBuf_of_ne hj, hj]

/-- A buffer is held now; its key is the one that was asked for. -/
theorem CacheOk.hold {b : Buf} (h : CacheOk mytask s order) (hne : (dev, sectorno) ≠ (~~~0, ~~~0))
    (hdev : b.dev = dev) (hsec : b.sectorno = sectorno) (hrefcnt : b.refcnt = 1)
    (hlock : LockOk mytask true b.lock)
    (hkey : ∀ j, s.cache.key j = (dev, sectorno) → j = i) :
    CacheOk mytask
      { s with cache := s.cache.setBuf i b, held := Function.update s.held i true } order := by
  refine ⟨h.linked, h.nodup, h.all, h.sorted, h.clock, fun j => ?_, fun j => ?_, fun j k hjk hj => ?_,
    fun j hj => ?_, fun j hj => ?_⟩
  · by_cases hji : j = i
    · subst hji
      simp [hrefcnt]
    · simpa [setBuf_of_ne hji, hji] using h.refcnt j
  · by_cases hji : j = i
    · subst hji
      simpa using hlock
    · simpa [setBuf_of_ne hji, hji] using h.lock j
  · simp only [key_setBuf, hdev, hsec] at hjk hj
    by_cases hji : j = i <;> by_cases hki : k = i
    · rw [hji, hki]
    · simp only [if_pos hji, if_neg hki] at hjk
      exact hji.trans (hkey k hjk.symm).symm
    · simp only [if_neg hji, if_pos hki] at hjk
      exact (hkey j hjk).trans hki.symm
    · simp only [if_neg hji, if_neg hki] at hjk hj
      exact h.keys j k hjk hj
  · rw [key_setBuf, hdev, hsec]
    by_cases hji : j = i
    · rwa [if_pos hji]
    · rw [if_neg hji]
      exact h.assigned j (by simpa [hji] using hj)
  · by_cases hji : j = i
    · simp [hji]
    · simpa [hji] using h.changed j hj

theorem CacheOk.bread (h : CacheOk mytask s order) (dbrSec : BitVec 32)
    (devOf : BitVec 32 → BitVec 32) (hp : s.Permitted (.bread dev sectorno)) :
    ∃ i s', s.cacheStep mytask dbrSec (.bread dev sectorno) = some (some i, s') ∧
      CacheOk mytask s' order ∧ s'.cache.key i = (dev, sectorno) ∧
      (∀ j, j ≠ i → s'.cache.key j = s.cache.key j) ∧
      ((∀ j, s.cache.key j ≠ (dev, sectorno)) → s.held i = false ∧
        ∀ j, s.held j = false → s.released i ≤ s.released j) ∧
      (s.cache.key i ≠ (dev, sectorno) → s.held i = false) ∧
      (ReadsOk dbrSec devOf s → dev = devOf sectorno →
        ReadsOk dbrSec devOf s' ∧ (s'.cache.buf i).data = s.array sectorno) := by
  obtain ⟨i, b, hrun, hheld, hvalid, hdev, hsec, hrefcnt, hlock, hor⟩ :=
    h.bread_eq dbrSec hp
  have hchanged : s.changed i = false := by
    by_contra hne
    rw [h.changed i (by simpa using hne)] at hheld
    cases hheld
  have hkey : ∀ j, s.cache.key j = (dev, sectorno) → j = i := by
    intro j hj
    rcases hor with ⟨hi, -⟩ | ⟨hmiss, -⟩
    · exact h.keys j i (hj.trans hi.symm) (hj ▸ hp.1)
    · exact absurd hj (hmiss j)
  refine ⟨i, _, by simp only [cacheStep, hrun, Option.map_some],
    h.hold hp.1 hdev hsec hrefcnt hlock hkey, ?_, fun j hj => ?_, fun hmiss => ?_, fun _ => hheld,
    fun hreads hof => ?_⟩
  · rw [key_setBuf, if_pos rfl, hdev, hsec]
  · rw [key_setBuf, if_neg hj]
  · rcases hor with ⟨hi, -⟩ | ⟨-, -, hlru⟩
    · exact absurd hi (hmiss i)
    · exact ⟨hheld, hlru⟩
  · have hdata : b.data = s.array sectorno := by
      rcases hor with ⟨hi, hsame⟩ | ⟨-, hdisk, -⟩
      · obtain ⟨hv, hd⟩ := hreads.data i (hi ▸ hp.1)
        rw [hsame hv, hd hchanged]
        exact congrArg s.array (Prod.mk.inj hi).2
      · rw [hdisk, hreads.array]
    refine ⟨⟨hreads.array, fun j hj => ?_, fun j hj => ?_⟩, by simpa using hdata⟩
    · by_cases hji : j = i
      · subst hji
        simpa [hdev, hsec] using hof
      · rw [key_setBuf, if_neg hji] at hj
        simpa [setBuf_of_ne hji] using hreads.dev j hj
    · by_cases hji : j = i
      · subst hji
        simp [hvalid, hsec, hdata]
      · rw [key_setBuf, if_neg hji] at hj
        simpa [setBuf_of_ne hji] using hreads.data j hj

/-- Only the data of a buffer that is held are changed. -/
theorem CacheOk.change (h : CacheOk mytask s order) (hi : s.held i = true) (data : Sector) :
    CacheOk mytask
      { s with
        cache := s.cache.setBuf i { s.cache.buf i with data }
        changed := Function.update s.changed i true } order := by
  have hkey : ∀ j, (s.cache.setBuf i { s.cache.buf i with data }).key j = s.cache.key j := by
    intro j
    rw [key_setBuf]
    split
    next hj => exact hj ▸ rfl
    · rfl
  refine ⟨h.linked, h.nodup, h.all, h.sorted, h.clock, fun j => ?_, fun j => ?_, fun j k => ?_,
    fun j => ?_, fun j hj => ?_⟩
  · by_cases hji : j = i
    · subst hji
      simpa using h.refcnt j
    · simpa [setBuf_of_ne hji] using h.refcnt j
  · by_cases hji : j = i
    · subst hji
      simpa using h.lock j
    · simpa [setBuf_of_ne hji] using h.lock j
  · simp only [hkey]
    exact h.keys j k
  · simp only [hkey]
    exact h.assigned j
  · by_cases hji : j = i
    · exact hji ▸ hi
    · exact h.changed j (by simpa [hji] using hj)

theorem ReadsOk.change (h : ReadsOk dbrSec devOf s) (i : Fin nbuf) (data : Sector) :
    ReadsOk dbrSec devOf
      { s with
        cache := s.cache.setBuf i { s.cache.buf i with data }
        changed := Function.update s.changed i true } := by
  refine ⟨h.array, fun j hj => ?_, fun j hj => ?_⟩ <;> rw [key_setBuf] at hj <;>
    by_cases hji : j = i
  · subst hji
    simpa using h.dev j (by simpa [key] using hj)
  · simpa [setBuf_of_ne hji] using h.dev j (by simpa [hji] using hj)
  · subst hji
    simpa using (h.data j (by simpa [key] using hj)).1
  · simpa [setBuf_of_ne hji, hji] using h.data j (by simpa [hji] using hj)

theorem CacheOk.bwrite (h : CacheOk mytask s order) (dbrSec : BitVec 32)
    (devOf : BitVec 32 → BitVec 32) (hi : s.held i = true) :
    ∃ s', s.cacheStep mytask dbrSec (.bwrite i) = some (none, s') ∧ CacheOk mytask s' order ∧
      s'.cache.buf = s.cache.buf ∧ (ReadsOk dbrSec devOf s → ReadsOk dbrSec devOf s') := by
  have hhold := (hi ▸ h.lock i).semHold
  have hrun : s.cacheStep mytask dbrSec (.bwrite i) = some (none,
      { s with
        cache := s.cache.diskWrite dbrSec i
        changed := Function.update s.changed i false
        array := Function.update s.array (s.cache.buf i).sectorno (s.cache.buf i).data }) := by
    simp [cacheStep, Bcache.bwrite, hhold]
  refine ⟨_, hrun, ⟨h.linked, h.nodup, h.all, h.sorted,
    h.clock, h.refcnt, h.lock, h.keys, h.assigned, fun j hj => ?_⟩, rfl, fun hreads => ⟨fun sec => ?_,
    hreads.dev, fun j hj => ⟨(hreads.data j hj).1, fun hclean => ?_⟩⟩⟩
  · by_cases hji : j = i
    · exact hji ▸ hi
    · exact h.changed j (by simpa [hji] using hj)
  · by_cases hsec : sec = (s.cache.buf i).sectorno
    · subst hsec
      simp [diskWrite]
    · have hne : sec + dbrSec ≠ (s.cache.buf i).sectorno + dbrSec := fun heq =>
        hsec ((BitVec.add_left_inj dbrSec).mp heq)
      simpa [diskWrite, hsec, hne] using hreads.array sec
  · by_cases hsec : (s.cache.buf j).sectorno = (s.cache.buf i).sectorno
    · have hkey : s.cache.key j = s.cache.key i := by
        have hij := hreads.dev i (h.assigned i hi)
        simp only [key, hreads.dev j hj, hij, hsec]
      obtain rfl := h.keys j i hkey hj
      simp [diskWrite]
    · have hji : j ≠ i := fun heq => hsec (heq ▸ rfl)
      simpa [diskWrite, hsec] using (hreads.data j hj).2 (by simpa [hji] using hclean)

/-- The buffer goes to the front of the list. -/
theorem CacheOk.brelse (h : CacheOk mytask s order) (dbrSec : BitVec 32)
    (devOf : BitVec 32 → BitVec 32) (hi : s.held i = true) (hclean : s.changed i = false) :
    ∃ s' order', s.cacheStep mytask dbrSec (.brelse i) = some (none, s') ∧
      CacheOk mytask s' order' ∧ (∀ j, s'.cache.key j = s.cache.key j) ∧
      (ReadsOk dbrSec devOf s → ReadsOk dbrSec devOf s') := by
  have hlock := hi ▸ h.lock i
  obtain ⟨lock, hsignal, hlock'⟩ := hlock.semSignal
  have hrefcnt : (s.cache.buf i).refcnt = 1 := by simpa [hi] using h.refcnt i
  obtain ⟨xs, ys, horder⟩ := List.append_of_mem (h.all i)
  have hnodup := h.nodup
  rw [horder] at hnodup
  obtain ⟨hnot, hnodup'⟩ := List.nodup_cons.mp (List.nodup_middle.mp hnodup)
  obtain ⟨L₁, hunlink, hl₁⟩ := unlink_linked (horder ▸ h.linked) hnodup
  obtain ⟨L₂, hfront, hl₂⟩ := linkFront_linked hl₁ hnodup' hnot
  let b : Buf := { s.cache.buf i with lock, refcnt := 0 }
  have hrun : s.cacheStep mytask dbrSec (.brelse i) = some (none,
      { s with
        cache := { s.cache.setBuf i b with links := L₂ }
        held := Function.update s.held i false
        released := Function.update s.released i (s.clock + 1)
        clock := s.clock + 1 }) := by
    have hone : (s.cache.buf i).refcnt - 1 = 0 := by
      rw [hrefcnt]
      rfl
    have hlinks : (s.cache.setBuf i b).links = s.cache.links := rfl
    simp only [cacheStep, Bcache.brelse, hlock.semHold, hsignal, hone, hlinks, hunlink, hfront,
      Option.bind_eq_bind, Option.bind_some, Bool.not_true, Bool.false_eq_true, if_false, if_true, b]
    rfl
  have hkey : ∀ j, Bcache.key { s.cache.setBuf i b with links := L₂ } j = s.cache.key j := by
    intro j
    refine (key_setBuf s.cache i j b).trans ?_
    split
    next hj => exact hj ▸ rfl
    · rfl
  refine ⟨_, i :: (xs ++ ys), hrun, ⟨hl₂, List.nodup_cons.mpr ⟨hnot, hnodup'⟩, fun j => ?_, ?_,
    fun j => ?_, fun j => ?_, fun j => ?_, fun j k => ?_, fun j hj => ?_, fun j hj => ?_⟩, hkey,
    fun hreads => ⟨hreads.array, fun j hj => ?_, fun j hj => ?_⟩⟩
  · have hj := h.all j
    rw [horder] at hj
    exact List.perm_middle.mem_iff.mp hj
  · rw [List.pairwise_cons]
    constructor
    · intro j hj
      have hji : j ≠ i := fun heq => hnot (heq ▸ hj)
      simpa [hji] using Nat.le_succ_of_le (h.clock j)
    · have hsub : (xs ++ ys).Sublist order := by
        rw [horder]
        exact List.Sublist.append_left (List.sublist_cons_self i ys) xs
      refine (h.sorted.sublist hsub).imp_of_mem fun {j k} hj hk hjk => ?_
      have hji : j ≠ i := fun heq => hnot (heq ▸ hj)
      have hki : k ≠ i := fun heq => hnot (heq ▸ hk)
      simpa [hji, hki] using hjk
  · by_cases hji : j = i
    · simp [hji]
    · simpa [hji] using Nat.le_succ_of_le (h.clock j)
  · by_cases hji : j = i
    · subst hji
      simp [b]
    · simpa [setBuf_of_ne hji, hji] using h.refcnt j
  · by_cases hji : j = i
    · subst hji
      simpa [b] using hlock'
    · simpa [setBuf_of_ne hji, hji] using h.lock j
  · simp only [hkey]
    exact h.keys j k
  · have hji : j ≠ i := by
      rintro rfl
      simp at hj
    rw [hkey]
    exact h.assigned j (by simpa [hji] using hj)
  · have hji : j ≠ i := by
      rintro rfl
      simp [hclean] at hj
    simpa [hji] using h.changed j hj
  · rw [hkey] at hj
    by_cases hji : j = i
    · subst hji
      simpa [b] using hreads.dev j hj
    · simpa [setBuf_of_ne hji] using hreads.dev j hj
  · rw [hkey] at hj
    by_cases hji : j = i
    · subst hji
      simpa [b] using hreads.data j hj
    · simpa [setBuf_of_ne hji] using hreads.data j hj

/-! ## Runs -/

theorem start_ok (mytask : Option ℕ) (dbrSec : BitVec 32) (devOf : BitVec 32 → BitVec 32)
    (disk : BitVec 32 → Sector) :
    ∃ s order, start dbrSec disk = some s ∧ CacheOk mytask s order ∧ ReadsOk dbrSec devOf s := by
  obtain ⟨cache, order, hrun, hdisk, hnodup, hall, hl, hfresh⟩ := binit_eq disk
  refine ⟨_, order, by rw [start, hrun]; rfl, ⟨hl, hnodup, hall, ?_, by simp, fun i => ?_,
    fun i => ?_, fun i j _ hne => absurd (hfresh i).2.2 hne, by simp, by simp⟩,
    ⟨fun sec => by simp [hdisk], fun i hne => absurd (hfresh i).2.2 hne,
      fun i hne => absurd (hfresh i).2.2 hne⟩⟩
  · exact List.pairwise_of_forall fun _ _ => le_rfl
  · simpa using (hfresh i).1
  · rw [(hfresh i).2.1]
    exact ⟨rfl, rfl, by simp⟩

/-- What a step leaves of the keys, and which buffer it recycles. -/
def Recycles (s : CacheRun) (op : BufOp) (r : Option (Fin nbuf)) (s' : CacheRun) : Prop :=
  (∀ j, s'.cache.key j ≠ s.cache.key j → r = some j ∧ (s.cache.buf j).refcnt = 0) ∧
    ∀ dev sectorno, op = .bread dev sectorno → ∃ i, r = some i ∧
      s'.cache.key i = (dev, sectorno) ∧
      ((∀ j, s.cache.key j ≠ (dev, sectorno)) →
        ∀ j, (s.cache.buf j).refcnt = 0 → s.released i ≤ s.released j)

/-- Under the device numbers of `devOf` a read delivers what the array has. -/
def ReadsArray (devOf : BitVec 32 → BitVec 32) (s : CacheRun) (op : BufOp)
    (r : Option (Fin nbuf)) (s' : CacheRun) : Prop :=
  ∀ dev sectorno, op = .bread dev sectorno → dev = devOf sectorno →
    ∃ i, r = some i ∧ (s'.cache.buf i).data = s.array sectorno

theorem CacheOk.step (h : CacheOk mytask s order) {op : BufOp} (hp : s.Permitted op)
    (dbrSec : BitVec 32) (devOf : BitVec 32 → BitVec 32) :
    ∃ r s', s.cacheStep mytask dbrSec op = some (r, s') ∧ (∃ order', CacheOk mytask s' order') ∧
      Recycles s op r s' ∧
      (ReadsOk dbrSec devOf s →
        (∀ dev sectorno, op = .bread dev sectorno → dev = devOf sectorno) →
          ReadsOk dbrSec devOf s' ∧ ReadsArray devOf s op r s') := by
  cases op with
  | bread dev sectorno =>
      obtain ⟨i, s', hrun, hok, hkey, hkept, hlru, hfree, hreads⟩ :=
        h.bread dbrSec devOf hp
      refine ⟨some i, s', hrun, ⟨order, hok⟩, ⟨fun j hj => ?_, ?_⟩, fun hr hof => ?_⟩
      · have hji : j = i := by
          by_contra hne
          exact hj (hkept j hne)
        subst hji
        exact ⟨rfl, (h.refcnt_eq_zero_iff j).mpr (hfree fun heq => hj (hkey.trans heq.symm))⟩
      · rintro _ _ ⟨⟩
        exact ⟨i, rfl, hkey, fun hmiss j hj => (hlru hmiss).2 j ((h.refcnt_eq_zero_iff j).mp hj)⟩
      · obtain ⟨hr', hdata⟩ := hreads hr (hof dev sectorno rfl)
        refine ⟨hr', ?_⟩
        rintro _ _ ⟨⟩ -
        exact ⟨i, rfl, hdata⟩
  | change i data =>
      refine ⟨none, _, rfl, ⟨order, h.change hp data⟩, ⟨fun j hj => absurd ?_ hj, by simp⟩,
        fun hr _ => ⟨hr.change i data, by simp [ReadsArray]⟩⟩
      simp only [key_setBuf]
      split
      next hji => exact hji ▸ rfl
      · rfl
  | bwrite i =>
      obtain ⟨s', hrun, hok, hbuf, hreads⟩ := h.bwrite dbrSec devOf hp
      refine ⟨none, s', hrun, ⟨order, hok⟩, ⟨fun j hj => absurd ?_ hj, by simp⟩,
        fun hr _ => ⟨hreads hr, by simp [ReadsArray]⟩⟩
      simp [key, hbuf]
  | brelse i =>
      obtain ⟨s', order', hrun, hok, hkey, hreads⟩ :=
        h.brelse dbrSec devOf hp.1 hp.2
      exact ⟨none, s', hrun, ⟨order', hok⟩, ⟨fun j hj => absurd (hkey j) hj, by simp⟩,
        fun hr _ => ⟨hreads hr, by simp [ReadsArray]⟩⟩

/-- What holds of a state. -/
structure CacheLaws (mytask : Option ℕ) (dbrSec : BitVec 32) (s : CacheRun) : Prop where
  listed : ∃ order : List (Fin nbuf), order.Nodup ∧ (∀ i, i ∈ order) ∧
    Linked s.cache.links .head (order.map .buf) .head
  keys : ∀ i j, s.cache.key i = s.cache.key j → s.cache.key i ≠ (~~~0, ~~~0) → i = j
  recycles : ∀ op r s', s.CacheStep mytask dbrSec (op, r) s' → Recycles s op r s'
  steps : ∀ op, s.Permitted op → ∃ r s', s.CacheStep mytask dbrSec (op, r) s'

theorem CacheOk.of_step (h : CacheOk mytask s order) (devOf : BitVec 32 → BitVec 32)
    {l : BufOp × Option (Fin nbuf)} (hstep : s.CacheStep mytask dbrSec l s') :
    (∃ order', CacheOk mytask s' order') ∧ Recycles s l.1 l.2 s' ∧
      (ReadsOk dbrSec devOf s →
        (∀ dev sectorno, l.1 = .bread dev sectorno → dev = devOf sectorno) →
          ReadsOk dbrSec devOf s' ∧ ReadsArray devOf s l.1 l.2 s') := by
  obtain ⟨r, s'', hrun, hrest⟩ := h.step hstep.1 dbrSec devOf
  obtain ⟨rfl, rfl⟩ := Prod.mk.inj (Option.some.inj (hrun.symm.trans hstep.2))
  exact hrest

theorem CacheOk.laws (h : CacheOk mytask s order) : CacheLaws mytask dbrSec s := by
  refine ⟨⟨order, h.nodup, h.all, h.linked⟩, h.keys, fun op r s' hstep => ?_, fun op hp => ?_⟩
  · exact (h.of_step id hstep).2.1
  · obtain ⟨r, s', hrun, -⟩ := h.step hp dbrSec id
    exact ⟨r, s', hp, hrun⟩

/-- The device numbers of the reads among the labels are those of `devOf`. -/
def DevsOf (devOf : BitVec 32 → BitVec 32) (ls : List (BufOp × Option (Fin nbuf))) : Prop :=
  ∀ dev sectorno r, (.bread dev sectorno, r) ∈ ls → dev = devOf sectorno

/-- The list holds each buffer once, no two buffers have one key, and the buffer that is
recycled is the free one that was released first. As long as no sector number is read
under two device numbers, a read delivers what the array has. -/
theorem bcache_refines {disk : BitVec 32 → Sector} {s₀ : CacheRun}
    (hstart : start dbrSec disk = some s₀) {ls : List (BufOp × Option (Fin nbuf))}
    (hrun : Run (CacheStep mytask dbrSec) s₀ ls s) :
    CacheLaws mytask dbrSec s ∧ ∀ devOf, DevsOf devOf ls → ∀ op r s',
      s.CacheStep mytask dbrSec (op, r) s' → ReadsArray devOf s op r s' := by
  have hok : (∃ order, CacheOk mytask s order) ∧
      ∀ devOf, DevsOf devOf ls → ReadsOk dbrSec devOf s := by
    induction ls using List.reverseRecOn generalizing s with
    | nil =>
        cases hrun
        refine ⟨?_, fun devOf _ => ?_⟩
        · obtain ⟨s₁, order, hs₁, hok, -⟩ := start_ok mytask dbrSec id disk
          obtain rfl := Option.some.inj (hs₁.symm.trans hstart)
          exact ⟨order, hok⟩
        · obtain ⟨s₁, order, hs₁, -, hreads⟩ := start_ok mytask dbrSec devOf disk
          obtain rfl := Option.some.inj (hs₁.symm.trans hstart)
          exact hreads
    | append_singleton ls l ih =>
        obtain ⟨u, hu, hstep⟩ := hrun.snoc_inv
        obtain ⟨⟨order, hok⟩, hreads⟩ := ih hu
        refine ⟨(hok.of_step id hstep).1, fun devOf hdevs => ?_⟩
        obtain ⟨-, -, hkeep⟩ := hok.of_step devOf hstep
        refine (hkeep (hreads devOf fun dev sec r hmem => hdevs dev sec r ?_)
          fun dev sec hop => hdevs dev sec l.2 ?_).1
        · exact List.mem_append_left _ hmem
        · simp [← hop]
  obtain ⟨⟨order, hok⟩, hreads⟩ := hok
  refine ⟨hok.laws, fun devOf hdevs op r s' hstep dev sec hop hdev => ?_⟩
  obtain ⟨-, -, hkeep⟩ := hok.of_step devOf hstep
  subst hop
  refine (hkeep (hreads devOf hdevs) ?_).2 dev sec rfl hdev
  rintro _ _ ⟨⟩
  exact hdev

/-! ## Two device numbers -/

instance (s : CacheRun) : DecidablePred s.Permitted
  | .bread _ _ => inferInstanceAs (Decidable (_ ∧ _ ∧ _))
  | .change _ _ => inferInstanceAs (Decidable (_ = _))
  | .bwrite _ => inferInstanceAs (Decidable (_ = _))
  | .brelse _ => inferInstanceAs (Decidable (_ ∧ _))

/-- A step with a given result, for runs that are computed. -/
def checkedStep (mytask : Option ℕ) (dbrSec : BitVec 32) (s : CacheRun)
    (l : BufOp × Option (Fin nbuf)) : Option CacheRun :=
  if s.Permitted l.1 then
    (s.cacheStep mytask dbrSec l.1).bind fun (r, s') => if r = l.2 then some s' else none
  else none

theorem cacheStep_of_checkedStep {l : BufOp × Option (Fin nbuf)}
    (h : s.checkedStep mytask dbrSec l = some s') : s.CacheStep mytask dbrSec l s' := by
  rw [checkedStep, Option.ite_none_right_eq_some] at h
  obtain ⟨hp, h⟩ := h
  obtain ⟨⟨r, t⟩, hstep, hr⟩ := Option.bind_eq_some_iff.mp h
  simp only [Option.ite_none_right_eq_some, Option.some.injEq] at hr
  obtain ⟨rfl, rfl⟩ := hr
  exact ⟨hp, hstep⟩

theorem exists_run_of_checked {β : Type*} (mytask : Option ℕ) (dbrSec : BitVec 32)
    (ls : List (BufOp × Option (Fin nbuf)))
    (g : CacheRun → β) (b : β)
    (h : ((start dbrSec fun _ _ => 0).bind fun s =>
      execute (checkedStep mytask dbrSec) s ls).map g = some b) :
    ∃ s₀ s, start dbrSec (fun _ _ => 0) = some s₀ ∧ Run (CacheStep mytask dbrSec) s₀ ls s ∧
      g s = b := by
  obtain ⟨s₀, s, hstart, hrun, hg⟩ := exists_run_of_execute _ _ ls g b h
  exact ⟨s₀, s, hstart, hrun.mono fun _ _ _ => cacheStep_of_checkedStep, hg⟩

/-- Sector 5 is written, and read under the same device number. -/
theorem bcache_refines_write_then_read :
    ∃ s₀ s, start 0 (fun _ _ => 0) = some s₀ ∧
      Run (CacheStep none 0) s₀
        [(.bread 0 5, some 0), (.change 0 fun _ => 1, none), (.bwrite 0, none),
          (.brelse 0, none)] s ∧
      CacheLaws none 0 s ∧
      ∀ op r s', s.CacheStep none 0 (op, r) s' → ReadsArray (fun _ => 0) s op r s' := by
  obtain ⟨s₀, s, hstart, hrun, -⟩ := exists_run_of_checked none 0
    [(.bread 0 5, some 0), (.change 0 fun _ => 1, none), (.bwrite 0, none), (.brelse 0, none)]
    (fun s => s.array 5 0) 1 (by decide +kernel)
  have hlaws := bcache_refines hstart hrun
  refine ⟨s₀, s, hstart, hrun, hlaws.1, hlaws.2 (fun _ => 0) ?_⟩
  rintro dev sec r hmem
  simp only [List.mem_cons, Prod.mk.injEq, BufOp.bread.injEq] at hmem
  simpa using hmem.elim (fun h => h.1.1) (by simp)

/-- A sector that is cached under device 0 and written under device 1 is read with its old
bytes; and what was written under device 1 is read under device 0. -/
theorem reads_mix_two_devices :
    (∃ s₀ s, start 0 (fun _ _ => 0) = some s₀ ∧
      Run (CacheStep none 0) s₀
        [(.bread 0 5, some 0), (.brelse 0, none), (.bread 1 5, some 1), (.change 1 fun _ => 1, none),
          (.bwrite 1, none), (.brelse 1, none), (.bread 0 5, some 0)] s ∧
      (s.cache.buf 0).data ≠ s.array 5) ∧
    ∃ s₀ s, start 0 (fun _ _ => 0) = some s₀ ∧
      Run (CacheStep none 0) s₀
        [(.bread 1 5, some 0), (.change 0 fun _ => 1, none), (.bwrite 0, none), (.brelse 0, none),
          (.bread 0 5, some 1)] s ∧
      (s.cache.buf 1).data ≠ fun _ => 0 := by
  constructor
  · obtain ⟨s₀, s, hstart, hrun, hg⟩ := exists_run_of_checked none 0
      [(.bread 0 5, some 0), (.brelse 0, none), (.bread 1 5, some 1), (.change 1 fun _ => 1, none),
        (.bwrite 1, none), (.brelse 1, none), (.bread 0 5, some 0)]
      (fun s => ((s.cache.buf 0).data 0, s.array 5 0)) (0, 1) (by decide +kernel)
    refine ⟨s₀, s, hstart, hrun, fun heq => ?_⟩
    obtain ⟨hold, hnew⟩ := Prod.mk.inj hg
    rw [heq, hnew] at hold
    exact absurd hold (by decide)
  · obtain ⟨s₀, s, hstart, hrun, hg⟩ := exists_run_of_checked none 0
      [(.bread 1 5, some 0), (.change 0 fun _ => 1, none), (.bwrite 0, none), (.brelse 0, none),
        (.bread 0 5, some 1)]
      (fun s => (s.cache.buf 1).data 0) 1 (by decide +kernel)
    refine ⟨s₀, s, hstart, hrun, fun heq => ?_⟩
    rw [heq] at hg
    exact absurd hg (by decide)

end CacheRun

end K210Os
