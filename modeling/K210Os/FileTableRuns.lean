import K210Os.FileTable
import Mathlib.Algebra.Order.BigOperators.Group.Finset
import Mathlib.Tactic.Abel

/-!
# Every entry counts its descriptors

The count of an entry is the number of descriptor slots and mmap areas of living
processes that refer to it, and the boot reference of the entries 0 to 2. That holds as
long as no process exits with an open descriptor 0, 1 or 2 or with an mmap area, and as
long as `fork` gets memory that is zero where a descriptor of the parent is closed.
-/

namespace K210Os

open Transition

def Slot.refers (slot : Slot) (f : Fin nfile) : ℕ := if slot = .file f then 1 else 0

@[simp] theorem Slot.refers_null (f : Fin nfile) : Slot.null.refers f = 0 := if_neg (by simp)

namespace OpenFiles

variable {ι : Type*} {s s' t : OpenFiles ι} {held held' : Fin nfile → ℤ} {p q c : ι} {fd : Fin nofile}
  {f f' : Fin nfile} {slot : Slot}

/-- The slots and mmap areas of a process that refer to an entry. -/
def uses (s : OpenFiles ι) (p : ι) (f : Fin nfile) : ℕ :=
  ∑ fd, (s.ofile p fd).refers f + (s.vma p).count f

theorem cast_uses (s : OpenFiles ι) (p : ι) (f : Fin nfile) :
    (s.uses p f : ℤ) =
      ((List.finRange nofile).map fun fd => ((s.ofile p fd).refers f : ℤ)).sum +
        (s.vma p).count f := by
  rw [uses, Nat.cast_add, Nat.cast_sum, Fin.sum_univ_def]

def users (s : OpenFiles ι) (f : Fin nfile) : ℕ := ∑ p ∈ s.live, s.uses p f

/-- The boot reference. -/
def boot (f : Fin nfile) : ℕ := if f.val < 3 then 1 else 0

/-- Every count is right, but for what a call in progress holds or owes. -/
def Refs (s : OpenFiles ι) (held : Fin nfile → ℤ) : Prop :=
  ∀ f, ((s.file f).ref : ℤ) = s.users f + boot f + held f

def one (f : Fin nfile) : Fin nfile → ℤ := fun f' => if f' = f then 1 else 0

@[simp] theorem one_self (f : Fin nfile) : one f f = 1 := if_pos rfl

theorem refers_file (f f' : Fin nfile) : ((Slot.file f).refers f' : ℤ) = one f f' := by
  by_cases h : f' = f
  · simp [Slot.refers, one, h]
  · simp [Slot.refers, one, h, Ne.symm h]

theorem Refs.congr (h : Refs s held) (heq : ∀ f, held f = held' f) : Refs s held' := fun f => by
  rw [← heq f]
  exact h f

/-! ## What a slot or an area adds -/

/-- Only the slots and areas of `p` changed. -/
theorem users_change (hp : p ∈ s.live) (hlive : s'.live = s.live)
    (hother : ∀ q, q ≠ p → s'.uses q f = s.uses q f) :
    s'.users f + s.uses p f = s.users f + s'.uses p f := by
  classical
  have hrest : ∑ q ∈ s.live.erase p, s'.uses q f = ∑ q ∈ s.live.erase p, s.uses q f :=
    Finset.sum_congr rfl fun q hq => hother q (Finset.ne_of_mem_erase hq)
  rw [users, users, hlive, ← Finset.add_sum_erase _ _ hp, ← Finset.add_sum_erase _ _ hp, hrest]
  omega

theorem le_users (hp : p ∈ s.live) (f : Fin nfile) : s.uses p f ≤ s.users f :=
  Finset.single_le_sum (f := fun q => s.uses q f) (fun _ _ => Nat.zero_le _) hp

theorem users_pos (hp : p ∈ s.live) (hslot : s.ofile p fd = .file f) : 1 ≤ s.users f := by
  refine le_trans ?_ (le_users hp f)
  have hone : (s.ofile p fd).refers f = 1 := by simp [hslot, Slot.refers]
  have hle : (s.ofile p fd).refers f ≤ ∑ fd, (s.ofile p fd).refers f :=
    Finset.single_le_sum (f := fun fd => (s.ofile p fd).refers f) (fun _ _ => Nat.zero_le _)
      (Finset.mem_univ fd)
  rw [uses]
  omega

variable [DecidableEq ι]

theorem uses_setSlot (s : OpenFiles ι) (p : ι) (fd : Fin nofile) (slot : Slot) (f : Fin nfile) :
    (s.setSlot p fd slot).uses p f + (s.ofile p fd).refers f = s.uses p f + slot.refers f := by
  have hrest : ∑ i ∈ Finset.univ.erase fd, ((s.setSlot p fd slot).ofile p i).refers f =
      ∑ i ∈ Finset.univ.erase fd, (s.ofile p i).refers f :=
    Finset.sum_congr rfl fun i hi => by simp [setSlot, Finset.ne_of_mem_erase hi]
  have hnew : ((s.setSlot p fd slot).ofile p fd).refers f = slot.refers f := by simp [setSlot]
  have hvma : (s.setSlot p fd slot).vma = s.vma := rfl
  rw [uses, uses, ← Finset.add_sum_erase _ _ (Finset.mem_univ fd),
    ← Finset.add_sum_erase _ _ (Finset.mem_univ fd), hrest, hnew, hvma]
  omega

theorem uses_setSlot_of_ne (hq : q ≠ p) : (s.setSlot p fd slot).uses q f = s.uses q f := by
  simp [uses, setSlot, hq]

theorem Refs.setSlot (h : Refs s held) (hp : p ∈ s.live) (fd : Fin nofile) (slot : Slot) :
    Refs (s.setSlot p fd slot) fun f => held f + (s.ofile p fd).refers f - slot.refers f := by
  intro f
  have hchange : (s.setSlot p fd slot).users f + s.uses p f =
      s.users f + (s.setSlot p fd slot).uses p f :=
    users_change hp rfl fun q hq => uses_setSlot_of_ne hq
  have hslot := uses_setSlot s p fd slot f
  have hold := h f
  have hfile : (s.setSlot p fd slot).file = s.file := rfl
  rw [hfile]
  beta_reduce
  omega

/-- The slots of a process that does not live yet do not count. -/
theorem Refs.setSlot_new (h : Refs s held) (hc : c ∉ s.live) (fd : Fin nofile) (slot : Slot) :
    Refs (s.setSlot c fd slot) held := by
  intro f
  have hsame : (s.setSlot c fd slot).users f = s.users f :=
    Finset.sum_congr rfl fun q hq => uses_setSlot_of_ne fun heq => hc (heq ▸ hq)
  rw [hsame]
  exact h f

theorem Refs.addArea (h : Refs s held) (hp : p ∈ s.live) (f : Fin nfile) :
    Refs { s with vma := Function.update s.vma p (s.vma p ++ [f]) }
      fun f' => held f' - one f f' := by
  intro f'
  set s₁ : OpenFiles ι := { s with vma := Function.update s.vma p (s.vma p ++ [f]) } with hs₁
  have hchange : s₁.users f' + s.uses p f' = s.users f' + s₁.uses p f' :=
    users_change hp rfl fun q hq => by simp [uses, hs₁, hq]
  have harea : (s₁.uses p f' : ℤ) = s.uses p f' + one f f' := by
    rw [← refers_file]
    simp [uses, hs₁, Slot.refers, List.count_append, List.count_singleton, beq_eq_decide,
      add_assoc]
  have hold := h f'
  have hfile : s₁.file = s.file := rfl
  rw [hfile]
  beta_reduce
  omega

theorem Refs.erase (h : Refs s held) (hp : p ∈ s.live) :
    Refs { s with live := s.live.erase p } fun f => held f + s.uses p f := by
  intro f
  have hsum : s.uses p f + ∑ q ∈ s.live.erase p, s.uses q f = s.users f :=
    Finset.add_sum_erase _ (fun q => s.uses q f) hp
  have hnew : OpenFiles.users { s with live := s.live.erase p } f =
      ∑ q ∈ s.live.erase p, s.uses q f := rfl
  have hfile : OpenFiles.file { s with live := s.live.erase p } = s.file := rfl
  have hold := h f
  rw [hnew, hfile]
  beta_reduce
  omega

theorem Refs.insert (h : Refs s held) (hc : c ∉ s.live) :
    Refs { s with live := insert c s.live } fun f => held f - s.uses c f := by
  intro f
  have hnew : OpenFiles.users { s with live := Insert.insert c s.live } f =
      s.uses c f + s.users f := Finset.sum_insert hc
  have hold := h f
  rw [hnew]
  push_cast
  omega

/-! ## The table -/

/-- The entries that were in use and are not any more are those that were closed. -/
def Closes (s s' : OpenFiles ι) : Prop :=
  ∃ new, s'.closed = new ++ s.closed ∧
    ∀ f, (s.file f).ref ≠ 0 → (f ∈ new.map Prod.fst ↔ (s'.file f).ref = 0)

/-- A part of a call that takes no free entry. -/
structure Effect (s s' : OpenFiles ι) : Prop where
  closes : Closes s s'
  free : ∀ f, (s.file f).ref = 0 → (s'.file f).ref = 0

/-- The slots, the areas and the living processes are as before. -/
def SameSlots (s s' : OpenFiles ι) : Prop :=
  s'.ofile = s.ofile ∧ s'.vma = s.vma ∧ s'.live = s.live

omit [DecidableEq ι] in
theorem Effect.of_refs (hclosed : s'.closed = s.closed)
    (href : ∀ f, (s'.file f).ref = 0 ↔ (s.file f).ref = 0) : Effect s s' :=
  ⟨⟨[], by simpa using hclosed, fun f hf => by simp [href, hf]⟩, fun f hf => (href f).mpr hf⟩

omit [DecidableEq ι] in
theorem Effect.refl (s : OpenFiles ι) : Effect s s := .of_refs rfl fun _ => Iff.rfl

omit [DecidableEq ι] in
theorem Effect.trans (h : Effect s s') (k : Effect s' t) : Effect s t := by
  obtain ⟨new, hnew, hiff⟩ := h.closes
  obtain ⟨new', hnew', hiff'⟩ := k.closes
  refine ⟨⟨new' ++ new, by rw [hnew', hnew, List.append_assoc], fun f hf => ?_⟩, fun f hf =>
    k.free f (h.free f hf)⟩
  rw [List.map_append, List.mem_append, hiff f hf]
  by_cases hzero : (s'.file f).ref = 0
  · simp [hzero, k.free f hzero]
  · simp [hzero, hiff' f hzero]

omit [DecidableEq ι] in
/-- Entries were taken before. -/
theorem Effect.closes_of_open (h : Effect s' t) (hclosed : s'.closed = s.closed)
    (href : ∀ f, (s.file f).ref ≠ 0 → (s'.file f).ref ≠ 0) : Closes s t := by
  obtain ⟨new, hnew, hiff⟩ := h.closes
  exact ⟨new, by rw [hnew, hclosed], fun f hf => hiff f (href f hf)⟩

theorem Effect.setSlot (s : OpenFiles ι) (p : ι) (fd : Fin nofile) (slot : Slot) :
    Effect s (s.setSlot p fd slot) := .of_refs rfl fun _ => Iff.rfl

omit [DecidableEq ι] in
theorem SameSlots.trans (h : SameSlots s s') (k : SameSlots s' t) : SameSlots s t :=
  ⟨k.1.trans h.1, k.2.1.trans h.2.1, k.2.2.trans h.2.2⟩

omit [DecidableEq ι] in
theorem SameSlots.users (h : SameSlots s s') (f : Fin nfile) : s'.users f = s.users f := by
  simp only [OpenFiles.users, OpenFiles.uses, h.1, h.2.1, h.2.2]

omit [DecidableEq ι] in
theorem ref_update (file : File) (hfile : s'.file = Function.update s.file f file)
    (f' : Fin nfile) : (s'.file f').ref = if f' = f then file.ref else (s.file f').ref := by
  rw [hfile]
  by_cases h : f' = f
  · simp [h]
  · simp [h]

omit [DecidableEq ι] in
/-- The count of one entry changes by `d`. -/
theorem Refs.update (h : Refs s held) {file : File} (d : ℤ)
    (hfile : s'.file = Function.update s.file f file) (hslots : SameSlots s s')
    (href : (file.ref : ℤ) = (s.file f).ref + d) (hheld : ∀ f', held' f' = held f' + d * one f f') :
    Refs s' held' := by
  intro f'
  have hold := h f'
  rw [ref_update file hfile, hslots.users, hheld]
  by_cases heq : f' = f
  · subst heq
    simp only [if_true, one_self, href]
    omega
  · simp only [if_neg heq, one]
    omega

omit [DecidableEq ι] in
theorem Effect.update {file : File} (hfile : s'.file = Function.update s.file f file)
    (hclosed : s'.closed = s.closed) (href : file.ref = 0 ↔ (s.file f).ref = 0) : Effect s s' := by
  refine .of_refs hclosed fun f' => ?_
  rw [ref_update file hfile]
  split
  next heq => rw [href, heq]
  · rfl

omit [DecidableEq ι] in
/-- An entry changes that keeps its count. -/
theorem Refs.setFile (h : Refs s held) (file : File) (href : file.ref = (s.file f).ref) :
    Refs (s.setFile f file) held ∧ Effect s (s.setFile f file) :=
  ⟨h.update 0 rfl ⟨rfl, rfl, rfl⟩ (by simp [href]) (by simp), .update rfl rfl (by rw [href])⟩

omit [DecidableEq ι] in
/-- `filealloc` delivers a free entry and takes it. -/
theorem Refs.filealloc (h : Refs s held) (halloc : s.filealloc = some (f, s')) :
    Refs s' (held + one f) ∧ SameSlots s s' ∧ s'.closed = s.closed ∧
      ∀ f', (s'.file f').ref = if f' = f then 1 else (s.file f').ref := by
  simp only [OpenFiles.filealloc, Option.map_eq_some_iff, Prod.mk.injEq] at halloc
  obtain ⟨f₁, hfind, rfl, rfl⟩ := halloc
  have hfree : (s.file f₁).ref = 0 := by simpa using List.find?_some hfind
  exact ⟨h.update 1 rfl ⟨rfl, rfl, rfl⟩ (by simp [hfree]) (by simp), ⟨rfl, rfl, rfl⟩, rfl,
    ref_update { s.file f₁ with ref := 1 } rfl⟩

omit [DecidableEq ι] in
theorem Refs.filedup (h : Refs s held) (hf : 1 ≤ (s.file f).ref) :
    ∃ s', s.filedup (.file f) = some s' ∧ Refs s' (held + one f) ∧ SameSlots s s' ∧
      Effect s s' := by
  refine ⟨s.setFile f { s.file f with ref := (s.file f).ref + 1 },
    by rw [OpenFiles.filedup, if_neg (by omega)],
    h.update 1 rfl ⟨rfl, rfl, rfl⟩ (by simp) (by simp), ⟨rfl, rfl, rfl⟩, .update rfl rfl ?_⟩
  simp only
  omega

omit [DecidableEq ι] in
theorem Refs.fileclose (h : Refs s held) (hf : 1 ≤ (s.file f).ref) :
    ∃ s', s.fileclose (.file f) = some s' ∧ Refs s' (held - one f) ∧ SameSlots s s' ∧
      Effect s s' := by
  rw [OpenFiles.fileclose, if_neg (by omega)]
  by_cases hlast : (s.file f).ref - 1 > 0
  · refine ⟨s.setFile f { s.file f with ref := (s.file f).ref - 1 }, by rw [if_pos hlast],
      h.update (-1) rfl ⟨rfl, rfl, rfl⟩ ?_ (by simp [sub_eq_add_neg]), ⟨rfl, rfl, rfl⟩,
      .update rfl rfl ?_⟩
    · simp only
      omega
    · simp only
      omega
  · let s₁ := s.setFile f { s.file f with ref := 0, type := .none }
    refine ⟨{ s₁ with closed := (f, s.file f) :: s.closed }, by rw [if_neg hlast],
      h.update (-1) rfl ⟨rfl, rfl, rfl⟩ ?_ (by simp [sub_eq_add_neg]), ⟨rfl, rfl, rfl⟩,
      ⟨[(f, s.file f)], rfl, fun f' hf' => ?_⟩, fun f' hf' => ?_⟩
    · simp only
      omega
    · have hfile : (s₁.file f').ref = if f' = f then 0 else (s.file f').ref :=
        ref_update { s.file f with ref := 0, type := .none } rfl f'
      simp [hfile, hf']
    · have hfile : (s₁.file f').ref = if f' = f then 0 else (s.file f').ref :=
        ref_update { s.file f with ref := 0, type := .none } rfl f'
      simp [hfile, hf']

/-! ## The calls -/

/-- No slot holds a word that is neither `NULL` nor an entry. -/
def Pointers (s : OpenFiles ι) : Prop := ∀ p ∈ s.live, ∀ fd word, s.ofile p fd ≠ .other word

/-- The invariant between calls. -/
structure FilesOk (s : OpenFiles ι) : Prop where
  refs : Refs s 0
  slots : Pointers s

omit [DecidableEq ι] in
theorem SameSlots.pointers (h : SameSlots s s') (hs : Pointers s) : Pointers s' := by
  simp only [Pointers, h.1, h.2.2]
  exact hs

theorem Pointers.setSlot (h : Pointers s) (p : ι) (fd : Fin nofile) (hslot : ∀ w, slot ≠ .other w) :
    Pointers (s.setSlot p fd slot) := by
  intro q hq i word
  by_cases hqp : q = p
  · subst hqp
    by_cases hi : i = fd
    · subst hi
      simpa [OpenFiles.setSlot] using hslot word
    · simpa [OpenFiles.setSlot, hi] using h q hq i word
  · simpa [OpenFiles.setSlot, hqp] using h q hq i word

omit [DecidableEq ι] in
theorem FilesOk.argfd (h : FilesOk s) (hp : p ∈ s.live) (n : ℤ) :
    s.argfd p n = none ∨ ∃ fd f, s.argfd p n = some (fd, .file f) ∧ s.ofile p fd = .file f := by
  rw [OpenFiles.argfd]
  split
  next hn =>
    cases hslot : s.ofile p ⟨n.toNat, hn.2⟩ with
    | null => exact .inl rfl
    | file f => exact .inr ⟨_, f, rfl, hslot⟩
    | other word => exact absurd hslot (h.slots p hp _ word)
  · exact .inl rfl

omit [DecidableEq ι] in
theorem FilesOk.ref_pos (h : FilesOk s) (hp : p ∈ s.live) (hslot : s.ofile p fd = .file f) :
    1 ≤ (s.file f).ref := by
  have hrefs := h.refs f
  have husers := users_pos hp hslot
  simp only [Pi.zero_apply] at hrefs
  omega

theorem fdalloc_eq {i : Fin nofile} (h : s.fdalloc p slot = some (i, s')) :
    s.ofile p i = .null ∧ s' = s.setSlot p i slot := by
  simp only [fdalloc, Option.map_eq_some_iff, Prod.mk.injEq] at h
  obtain ⟨i₁, hfind, rfl, rfl⟩ := h
  have hfree := List.find?_some hfind
  simp only [decide_eq_true_eq] at hfree
  exact ⟨hfree.2, rfl⟩

/-- A reference that the call holds goes into a slot that is free. -/
theorem Refs.putSlot (h : Refs s (held + one f)) (hp : p ∈ s.live)
    (hfree : s.ofile p fd = .null) : Refs (s.setSlot p fd (.file f)) held :=
  (h.setSlot hp fd (.file f)).congr fun f' => by
    rw [hfree, refers_file]
    simp

/-- A slot is cleared, and the call holds its reference. -/
theorem Refs.clearSlot (h : Refs s held) (hp : p ∈ s.live) (hslot : s.ofile p fd = .file f) :
    Refs (s.setSlot p fd .null) (held + one f) :=
  (h.setSlot hp fd .null).congr fun f' => by
    rw [hslot, refers_file]
    simp

omit [DecidableEq ι] in
theorem Refs.pos_of_held (h : Refs s (held + one f)) (hheld : 0 ≤ held f) :
    1 ≤ (s.file f).ref := by
  have hf := h f
  rw [Pi.add_apply, one_self] at hf
  omega

omit [DecidableEq ι] in
/-- The call drops a reference that it holds. -/
theorem Refs.drop (h : Refs s (held + one f)) (hheld : 0 ≤ held f) :
    ∃ s', s.fileclose (.file f) = some s' ∧ Refs s' held ∧ SameSlots s s' ∧ Effect s s' := by
  obtain ⟨s', hrun, hrefs, hslots, heff⟩ := h.fileclose (h.pos_of_held hheld)
  exact ⟨s', hrun, hrefs.congr (by simp), hslots, heff⟩

theorem FilesOk.sysClose (h : FilesOk s) (hp : p ∈ s.live) (n : ℤ) :
    ∃ r s', s.sysClose p n = some (r, s') ∧ FilesOk s' ∧ Closes s s' := by
  rcases h.argfd hp n with hnone | ⟨fd, f, hsome, hslot⟩
  · exact ⟨-1, s, by simp [OpenFiles.sysClose, hnone], h, (Effect.refl s).closes⟩
  · obtain ⟨s', hrun, hrefs, hslots, heff⟩ := (h.refs.clearSlot hp hslot).drop le_rfl
    exact ⟨0, s', by simp [OpenFiles.sysClose, hsome, hrun],
      ⟨hrefs, hslots.pointers (h.slots.setSlot p fd (by simp))⟩,
      ((Effect.setSlot s p fd .null).trans heff).closes⟩

/-- A slot that was free refers to an entry now, and the entry is counted once more. -/
theorem FilesOk.dupSlot (h : FilesOk s) (hp : p ∈ s.live) (hfree : s.ofile p fd = .null)
    (hf : 1 ≤ (s.file f).ref) :
    ∃ s', (s.setSlot p fd (.file f)).filedup (.file f) = some s' ∧ FilesOk s' ∧ Closes s s' := by
  have h₁ : Refs (s.setSlot p fd (.file f)) (-one f) :=
    (h.refs.congr fun f' => by simp : Refs s (-one f + one f)).putSlot hp hfree
  obtain ⟨s', hrun, hrefs, hslots, heff⟩ := h₁.filedup (show 1 ≤ (s.file f).ref from hf)
  exact ⟨s', hrun, ⟨hrefs.congr (by simp), hslots.pointers (h.slots.setSlot p fd (by simp))⟩,
    ((Effect.setSlot s p fd (.file f)).trans heff).closes⟩

theorem FilesOk.sysDup (h : FilesOk s) (hp : p ∈ s.live) (n : ℤ) :
    ∃ r s', s.sysDup p n = some (r, s') ∧ FilesOk s' ∧ Closes s s' := by
  rcases h.argfd hp n with hnone | ⟨fd, f, hsome, hslot⟩
  · exact ⟨-1, s, by simp [OpenFiles.sysDup, hnone], h, (Effect.refl s).closes⟩
  · cases halloc : s.fdalloc p (.file f) with
    | none => exact ⟨-1, s, by simp [OpenFiles.sysDup, hsome, halloc], h, (Effect.refl s).closes⟩
    | some x =>
        obtain ⟨i, s₁⟩ := x
        obtain ⟨hfree, rfl⟩ := fdalloc_eq halloc
        obtain ⟨s', hrun, hok, hcl⟩ := h.dupSlot hp hfree (h.ref_pos hp hslot)
        exact ⟨i.val, s', by simp [OpenFiles.sysDup, hsome, halloc, hrun], hok, hcl⟩

theorem FilesOk.sysDup3 (h : FilesOk s) (hp : p ∈ s.live) (n : ℤ) (newfd : Fin nofile) :
    ∃ r s', s.sysDup3 p n newfd = some (r, s') ∧ FilesOk s' ∧ Closes s s' := by
  rcases h.argfd hp n with hnone | ⟨fd, f, hsome, hslot⟩
  · exact ⟨-1, s, by simp [OpenFiles.sysDup3, hnone], h, (Effect.refl s).closes⟩
  · by_cases hsame : n = newfd.val
    · exact ⟨newfd.val, s, by simp only [OpenFiles.sysDup3, hsome, if_pos hsame], h, (Effect.refl s).closes⟩
    · by_cases hfree : s.ofile p newfd = .null
      · obtain ⟨s', hrun, hok, hcl⟩ := h.dupSlot hp hfree (h.ref_pos hp hslot)
        have hne : (newfd.val : ℤ) ≠ -1 := by omega
        exact ⟨newfd.val, s', by simp [OpenFiles.sysDup3, hsome, hsame, fdalloc2, hfree, hne, hrun], hok,
          hcl⟩
      · exact ⟨-1, s, by simp [OpenFiles.sysDup3, hsome, hsame, fdalloc2, hfree], h,
          (Effect.refl s).closes⟩

theorem FilesOk.sysMmap (h : FilesOk s) (hp : p ∈ s.live) (prot flags : BitVec 32) {n : ℤ}
    (hfd : s.argfd p n ≠ none) :
    ∃ r s', s.sysMmap p prot flags n = some (r, s') ∧ FilesOk s' ∧ Closes s s' := by
  rcases h.argfd hp n with hnone | ⟨fd, f, hsome, hslot⟩
  · exact absurd hnone hfd
  · simp only [OpenFiles.sysMmap, hsome]
    split
    · exact ⟨false, s, rfl, h, (Effect.refl s).closes⟩
    · split
      · exact ⟨false, s, rfl, h, (Effect.refl s).closes⟩
      · obtain ⟨s', hrun, hrefs, hslots, heff⟩ :=
          (h.refs.addArea hp f).filedup (show 1 ≤ (s.file f).ref from h.ref_pos hp hslot)
        refine ⟨true, s', by simp [hrun], ⟨hrefs.congr (by simp), hslots.pointers h.slots⟩, ?_⟩
        exact heff.closes

theorem FilesOk.fileopen (h : FilesOk s) (hp : p ∈ s.live) (ep : ℕ) (readable writable : Bool) :
    ∃ r s', s.fileopen p ep readable writable = some (r, s') ∧ FilesOk s' ∧ Closes s s' := by
  cases halloc : s.filealloc with
  | none =>
      exact ⟨-1, s, by simp only [OpenFiles.fileopen, halloc], h, (Effect.refl s).closes⟩
  | some x =>
      obtain ⟨f, s₁⟩ := x
      obtain ⟨hrefs₁, hslots₁, hclosed₁, href₁⟩ := h.refs.filealloc halloc
      have hopened : ∀ f', (s.file f').ref ≠ 0 → (s₁.file f').ref ≠ 0 := fun f' hf' => by
        rw [href₁]
        split <;> simp [hf']
      have hp₁ : p ∈ s₁.live := hslots₁.2.2 ▸ hp
      have hok₁ : Pointers s₁ := hslots₁.pointers h.slots
      cases hfd : s₁.fdalloc p (.file f) with
      | none =>
          obtain ⟨s', hrun, hrefs, hslots, heff⟩ := hrefs₁.drop le_rfl
          exact ⟨-1, s', by simp only [OpenFiles.fileopen, halloc, hfd, hrun, Option.map_some],
            ⟨hrefs, hslots.pointers hok₁⟩, heff.closes_of_open hclosed₁ hopened⟩
      | some y =>
          obtain ⟨fd, s₂⟩ := y
          obtain ⟨hfree, rfl⟩ := fdalloc_eq hfd
          have htwice : (s₁.setSlot p fd (.file f)).setSlot p fd (.file f) =
              s₁.setSlot p fd (.file f) := by
            simp [OpenFiles.setSlot]
          have hrefs₂ := hrefs₁.putSlot hp₁ hfree
          obtain ⟨hrefs, heff⟩ := hrefs₂.setFile (f := f)
            { s₁.file f with type := .entry, ep, readable, writable } rfl
          refine ⟨fd.val, _, by simp only [OpenFiles.fileopen, halloc, hfd, htwice]; rfl,
            ⟨hrefs, ?_⟩, ((Effect.setSlot s₁ p fd _).trans heff).closes_of_open hclosed₁ hopened⟩
          exact hok₁.setSlot p fd (by simp)

omit [DecidableEq ι] in
/-- Both ends of a pipe are given back. -/
theorem Refs.dropBoth (h : Refs s (one f + one f')) :
    ∃ s₁ s', s.fileclose (.file f) = some s₁ ∧ s₁.fileclose (.file f') = some s' ∧ Refs s' 0 ∧
      SameSlots s s' ∧ Effect s s' := by
  have hone : ∀ f₁ f₂ : Fin nfile, 0 ≤ one f₁ f₂ := fun f₁ f₂ => by
    rw [one]
    split <;> simp
  have hswap : Refs s (one f' + one f) := h.congr fun f₁ => by simp [add_comm]
  obtain ⟨s₁, hrun₁, hrefs₁, hslots₁, heff₁⟩ := hswap.drop (hone f' f)
  have hlast : Refs s₁ (0 + one f') := hrefs₁.congr fun f₁ => by simp
  obtain ⟨s', hrun₂, hrefs₂, hslots₂, heff₂⟩ := hlast.drop le_rfl
  exact ⟨s₁, s', hrun₁, hrun₂, hrefs₂, hslots₁.trans hslots₂, heff₁.trans heff₂⟩

omit [DecidableEq ι] in
/-- `pipealloc` delivers two entries that the call holds, or leaves things as they were. -/
theorem FilesOk.pipealloc (h : FilesOk s) (heap : Option ℕ) :
    ∃ r s₁ s', s.pipealloc heap = some (r, s') ∧ s₁.closed = s.closed ∧
      (∀ f, (s.file f).ref ≠ 0 → (s₁.file f).ref ≠ 0) ∧ Effect s₁ s' ∧ SameSlots s s' ∧
      ((r = none ∧ Refs s' 0) ∨ ∃ f f', r = some (f, f') ∧ Refs s' (one f + one f')) := by
  cases halloc : s.filealloc with
  | none =>
      exact ⟨none, s, s, by simp only [OpenFiles.pipealloc, halloc], rfl, fun _ => id, Effect.refl s,
        ⟨rfl, rfl, rfl⟩, .inl ⟨rfl, h.refs⟩⟩
  | some x =>
      obtain ⟨f0, s₁⟩ := x
      obtain ⟨hrefs₁, hslots₁, hclosed₁, href₁⟩ := h.refs.filealloc halloc
      have hopened₁ : ∀ f', (s.file f').ref ≠ 0 → (s₁.file f').ref ≠ 0 := fun f' hf' => by
        rw [href₁]
        split <;> simp [hf']
      cases halloc₂ : s₁.filealloc with
      | none =>
          obtain ⟨s', hrun, hrefs, hslots, heff⟩ := hrefs₁.drop le_rfl
          exact ⟨none, s₁, s', by simp only [OpenFiles.pipealloc, halloc, halloc₂, hrun, Option.map_some],
            hclosed₁, hopened₁, heff, hslots₁.trans hslots, .inl ⟨rfl, hrefs⟩⟩
      | some y =>
          obtain ⟨f1, s₂⟩ := y
          obtain ⟨hrefs₂, hslots₂, hclosed₂, href₂⟩ := hrefs₁.filealloc halloc₂
          have hopened₂ : ∀ f', (s.file f').ref ≠ 0 → (s₂.file f').ref ≠ 0 := fun f' hf' => by
            rw [href₂]
            split <;> simp [hopened₁ f' hf']
          have hslots := hslots₁.trans hslots₂
          have hclosed := hclosed₂.trans hclosed₁
          have hboth : Refs s₂ (one f0 + one f1) := hrefs₂.congr fun f => by simp
          cases heap with
          | none =>
              obtain ⟨s₃, s', hrun₃, hrun, hrefs, hslots', heff⟩ := hboth.dropBoth
              exact ⟨none, s₂, s', by simp only [OpenFiles.pipealloc, halloc, halloc₂, hrun₃, hrun,
                Option.bind_some, Option.map_some], hclosed, hopened₂, heff, hslots.trans hslots',
                .inl ⟨rfl, hrefs⟩⟩
          | some pipe =>
              obtain ⟨hrefs₃, heff₃⟩ := hboth.setFile (f := f0)
                { s₂.file f0 with type := .pipe, readable := true, writable := false, pipe } rfl
              obtain ⟨hrefs₄, heff₄⟩ := hrefs₃.setFile (f := f1)
                { (s₂.setFile f0 { s₂.file f0 with
                    type := .pipe, readable := true, writable := false, pipe }).file f1 with
                  type := .pipe, readable := false, writable := true, pipe } rfl
              exact ⟨some (f0, f1), s₂, _, by simp only [OpenFiles.pipealloc, halloc, halloc₂], hclosed,
                hopened₂, heff₃.trans heff₄, hslots.trans ⟨rfl, rfl, rfl⟩,
                .inr ⟨f0, f1, rfl, hrefs₄⟩⟩

theorem FilesOk.sysPipe (h : FilesOk s) (hp : p ∈ s.live) (heap : Option ℕ) (copied : Bool) :
    ∃ r s', s.sysPipe p heap copied = some (r, s') ∧ FilesOk s' ∧ Closes s s' := by
  obtain ⟨r, s₁, s₂, halloc, hclosed, hopened, heff, hslots, hor⟩ := h.pipealloc heap
  have hptr := hslots.pointers h.slots
  have hp₂ : p ∈ s₂.live := hslots.2.2 ▸ hp
  -- whatever is undone from here on
  have hundo : ∀ {t f f'}, Refs t (one f + one f') → Pointers t → Effect s₂ t →
      ∃ r s', t.closeBoth f f' = some (r, s') ∧ FilesOk s' ∧ Closes s s' := by
    intro t f f' hrefs ht hefft
    obtain ⟨t₁, s', hrun₁, hrun, hrefs', hslots', heff'⟩ := hrefs.dropBoth
    exact ⟨-1, s', by simp [closeBoth, hrun₁, hrun], ⟨hrefs', hslots'.pointers ht⟩,
      (heff.trans (hefft.trans heff')).closes_of_open hclosed hopened⟩
  rcases hor with ⟨rfl, hrefs⟩ | ⟨rf, wf, rfl, hrefs⟩
  · exact ⟨-1, s₂, by simp [OpenFiles.sysPipe, halloc], ⟨hrefs, hptr⟩,
      heff.closes_of_open hclosed hopened⟩
  · simp only [OpenFiles.sysPipe, halloc, Option.bind_some]
    cases hfd0 : s₂.fdalloc p (.file rf) with
    | none => exact hundo hrefs hptr (Effect.refl s₂)
    | some x =>
        obtain ⟨fd0, s₃⟩ := x
        obtain ⟨hfree0, rfl⟩ := fdalloc_eq hfd0
        have hrefs₃ : Refs (s₂.setSlot p fd0 (.file rf)) (one wf) :=
          (hrefs.congr fun f => by simp [add_comm] : Refs s₂ (one wf + one rf)).putSlot hp₂ hfree0
        have hptr₃ := hptr.setSlot p fd0 (show ∀ w, Slot.file rf ≠ .other w by simp)
        have heff₃ := Effect.setSlot s₂ p fd0 (.file rf)
        have hslot0 : (s₂.setSlot p fd0 (.file rf)).ofile p fd0 = .file rf := by simp [OpenFiles.setSlot]
        simp only
        cases hfd1 : (s₂.setSlot p fd0 (.file rf)).fdalloc p (.file wf) with
        | none =>
            refine hundo ((hrefs₃.clearSlot hp₂ hslot0).congr fun f => by simp [add_comm])
              (hptr₃.setSlot p fd0 (by simp)) (heff₃.trans (Effect.setSlot _ p fd0 .null))
        | some y =>
            obtain ⟨fd1, s₄⟩ := y
            obtain ⟨hfree1, rfl⟩ := fdalloc_eq hfd1
            have hne : fd0 ≠ fd1 := by
              rintro rfl
              rw [hslot0] at hfree1
              cases hfree1
            have hrefs₄ : Refs ((s₂.setSlot p fd0 (.file rf)).setSlot p fd1 (.file wf)) 0 :=
              (hrefs₃.congr fun f => by simp : Refs _ (0 + one wf)).putSlot hp₂ hfree1
            have hptr₄ := hptr₃.setSlot p fd1 (show ∀ w, Slot.file wf ≠ .other w by simp)
            have heff₄ := heff₃.trans (Effect.setSlot _ p fd1 (.file wf))
            simp only
            cases copied with
            | true =>
                exact ⟨0, _, rfl, ⟨hrefs₄, hptr₄⟩,
                  (heff.trans heff₄).closes_of_open hclosed hopened⟩
            | false =>
                set t := (s₂.setSlot p fd0 (.file rf)).setSlot p fd1 (.file wf) with ht
                have ht0 : t.ofile p fd0 = .file rf := by simp [ht, OpenFiles.setSlot, hne]
                have hrefs₅ := hrefs₄.clearSlot (show p ∈ t.live from hp₂) ht0
                have ht1 : (t.setSlot p fd0 .null).ofile p fd1 = .file wf := by
                  simp [ht, OpenFiles.setSlot, hne.symm]
                have hrefs₆ := hrefs₅.clearSlot (show p ∈ (t.setSlot p fd0 .null).live from hp₂) ht1
                exact hundo (hrefs₆.congr fun f => by simp)
                  ((hptr₄.setSlot p fd0 (by simp)).setSlot p fd1 (by simp))
                  ((heff₄.trans (Effect.setSlot t p fd0 .null)).trans (Effect.setSlot _ p fd1 .null))

/-- The loop of `exit_current_and_run_next` clears the slots it comes to. -/
theorem FilesOk.exitSlots (h : FilesOk s) (hp : p ∈ s.live) (l : List (Fin nofile)) :
    ∃ s', l.foldlM (exitSlot p) s = some s' ∧ FilesOk s' ∧ Effect s s' ∧ s'.vma = s.vma ∧
      s'.live = s.live ∧ ∀ fd, s'.ofile p fd = if fd ∈ l then .null else s.ofile p fd := by
  induction l generalizing s with
  | nil => exact ⟨s, rfl, h, Effect.refl s, rfl, rfl, by simp⟩
  | cons i l ih =>
      have hround : ∃ s₁, exitSlot p s i = some s₁ ∧ FilesOk s₁ ∧ Effect s s₁ ∧ s₁.vma = s.vma ∧
          s₁.live = s.live ∧ ∀ fd, s₁.ofile p fd = if fd = i then .null else s.ofile p fd := by
        rw [exitSlot]
        cases hslot : s.ofile p i with
        | null =>
            refine ⟨s, by simp, h, Effect.refl s, rfl, rfl, fun fd => ?_⟩
            by_cases hfd : fd = i
            · simp [hfd, hslot]
            · simp [hfd]
        | other word => exact absurd hslot (h.slots p hp i word)
        | file f =>
            obtain ⟨s₁, hrun, hrefs₁, hslots₁, heff₁⟩ := h.refs.fileclose (h.ref_pos hp hslot)
            have hslot₁ : s₁.ofile p i = .file f := by rw [hslots₁.1, hslot]
            have hrefs₂ := hrefs₁.clearSlot (hslots₁.2.2 ▸ hp) hslot₁
            refine ⟨s₁.setSlot p i .null, by simp [hrun], ⟨hrefs₂.congr (by simp),
              (hslots₁.pointers h.slots).setSlot p i (by simp)⟩, heff₁.trans (Effect.setSlot ..),
              hslots₁.2.1, hslots₁.2.2, fun fd => ?_⟩
            by_cases hfd : fd = i
            · simp [OpenFiles.setSlot, hfd]
            · simp [OpenFiles.setSlot, hfd, hslots₁.1]
      obtain ⟨s₁, hrun₁, hok₁, heff₁, hvma₁, hlive₁, hslot₁⟩ := hround
      obtain ⟨s', hrun, hok, heff, hvma, hlive, hslot⟩ := ih hok₁ (hlive₁ ▸ hp)
      refine ⟨s', ?_, hok, heff₁.trans heff, hvma.trans hvma₁, hlive.trans hlive₁, fun fd => ?_⟩
      · rw [List.foldlM_cons, hrun₁]
        exact hrun
      · rw [hslot, hslot₁]
        by_cases hfd : fd = i <;> by_cases hl : fd ∈ l <;> simp [hfd, hl]

/-- A process without open descriptors 0 to 2 and without mmap areas exits. -/
theorem FilesOk.exit (h : FilesOk s) (hp : p ∈ s.live) (hstd : ∀ fd, fd.val < 3 → s.ofile p fd = .null)
    (harea : s.vma p = []) : ∃ s', s.exit p = some s' ∧ FilesOk s' ∧ Closes s s' := by
  obtain ⟨s₁, hrun, hok, heff, hvma, hlive, hslot⟩ :=
    h.exitSlots hp ((List.finRange nofile).filter fun fd => decide (3 ≤ fd.val))
  have hnull : ∀ fd, s₁.ofile p fd = .null := fun fd => by
    rw [hslot]
    by_cases hfd : 3 ≤ fd.val
    · simp [hfd]
    · simpa [hfd] using hstd fd (by omega)
  have huses : ∀ f, s₁.uses p f = 0 := fun f => by
    simp [uses, hnull, hvma, harea]
  refine ⟨{ s₁ with live := s₁.live.erase p }, by simp [OpenFiles.exit, hrun],
    ⟨(hok.refs.erase (hlive ▸ hp)).congr (by simp [huses]), fun q hq => ?_⟩, heff.closes⟩
  exact hok.slots q (Finset.mem_of_mem_erase hq)

/-- A process that does not live yet gets a descriptor. -/
theorem Refs.dupNew (h : Refs s held) (hc : c ∉ s.live) (fd : Fin nofile)
    (hf : 1 ≤ (s.file f).ref) :
    ∃ s₁, s.filedup (.file f) = some s₁ ∧
      Refs (s₁.setSlot c fd (.file f)) (held + one f) ∧ SameSlots s s₁ ∧
      Effect s (s₁.setSlot c fd (.file f)) := by
  obtain ⟨s₁, hrun, hrefs, hslots, heff⟩ := h.filedup hf
  have hc₁ : c ∉ s₁.live := by rwa [hslots.2.2]
  exact ⟨s₁, hrun, hrefs.setSlot_new hc₁ fd (.file f), hslots, heff.trans (Effect.setSlot ..)⟩

omit [DecidableEq ι] in
theorem SameSlots.uses (h : SameSlots s s') (p : ι) (f : Fin nfile) : s'.uses p f = s.uses p f := by
  simp only [OpenFiles.uses, h.1, h.2.1]

/-- What the loops that fill the slots of the new process `c` leave: the call holds the
references of these slots. -/
structure Filled (c : ι) (s s' : OpenFiles ι) : Prop where
  refs : Refs s' fun f => s'.uses c f
  effect : Effect s s'
  live : s'.live = s.live
  slots : ∀ q, q ≠ c → s'.ofile q = s.ofile q

/-- The loop of `fork`; `l` are the slots it still comes to. -/
theorem forkSlots (l : List (Fin nofile)) (hl : l.Nodup) (h : Refs s held) (hheld : ∀ f, 0 ≤ held f)
    (huses : ∀ f, held f + (l.map fun fd => ((s.ofile c fd).refers f : ℤ)).sum = s.uses c f)
    (hp : p ∈ s.live) (hc : c ∉ s.live) (hs : Pointers s)
    (hstale : ∀ fd ∈ l, s.ofile p fd = .null → s.ofile c fd = .null) :
    ∃ s', l.foldlM (forkSlot p c) s = some s' ∧ Filled c s s' ∧
      ∀ fd, s'.ofile c fd = if fd ∈ l then s.ofile p fd else s.ofile c fd := by
  have hpc : p ≠ c := fun heq => hc (heq ▸ hp)
  induction l generalizing s held with
  | nil =>
      exact ⟨s, rfl, ⟨h.congr fun f => by simpa using huses f, Effect.refl s, rfl, fun _ _ => rfl⟩,
        by simp⟩
  | cons i l ih =>
      obtain ⟨hil, hl⟩ := List.nodup_cons.mp hl
      rw [List.foldlM_cons, forkSlot]
      cases hslot : s.ofile p i with
      | other word => exact absurd hslot (hs p hp i word)
      | null =>
          have hci := hstale i (by simp) hslot
          obtain ⟨s', hrun, hfilled, hslots⟩ := ih hl h hheld
            (fun f => by simpa [hci] using huses f) hp hc hs fun fd hfd =>
              hstale fd (List.mem_cons_of_mem _ hfd)
          refine ⟨s', by simpa using hrun, hfilled, fun fd => ?_⟩
          rw [hslots]
          by_cases hfd : fd = i
          · subst hfd
            simp [hil, hslot, hci]
          · simp [hfd]
      | file f =>
          have hf : 1 ≤ (s.file f).ref := by
            have hrefs := h f
            have hpos := users_pos hp hslot
            have hnonneg := hheld f
            omega
          obtain ⟨s₁, hdup, hrefs₁, hslots₁, heff₁⟩ := h.dupNew hc i hf
          have hother : ∀ q, q ≠ c → (s₁.setSlot c i (.file f)).ofile q = s.ofile q := fun q hq => by
            simp [OpenFiles.setSlot, hq, hslots₁.1]
          have hcslot : ∀ fd, (s₁.setSlot c i (.file f)).ofile c fd =
              if fd = i then .file f else s.ofile c fd := fun fd => by
            by_cases hfd : fd = i
            · simp [OpenFiles.setSlot, hfd]
            · simp [OpenFiles.setSlot, hfd, hslots₁.1]
          have hsum : ∀ f', (l.map fun fd => (((s₁.setSlot c i (.file f)).ofile c fd).refers f' : ℤ)) =
              l.map fun fd => ((s.ofile c fd).refers f' : ℤ) := fun f' =>
            List.map_congr_left fun fd hfd => by
              rw [hcslot, if_neg fun heq : fd = i => hil (heq ▸ hfd)]
          have huses₁ : ∀ f', (held + one f) f' +
              (l.map fun fd => (((s₁.setSlot c i (.file f)).ofile c fd).refers f' : ℤ)).sum =
                (s₁.setSlot c i (.file f)).uses c f' := fun f' => by
            have hset := uses_setSlot s₁ c i (.file f) f'
            have hone := refers_file f f'
            have hold := huses f'
            rw [hslots₁.uses, hslots₁.1] at hset
            rw [List.map_cons, List.sum_cons] at hold
            rw [hsum, Pi.add_apply]
            omega
          have hstale₁ : ∀ fd ∈ l, (s₁.setSlot c i (.file f)).ofile p fd = .null →
              (s₁.setSlot c i (.file f)).ofile c fd = .null := fun fd hfd hnull => by
            rw [hother p hpc] at hnull
            rw [hcslot, if_neg fun heq : fd = i => hil (heq ▸ hfd)]
            exact hstale fd (List.mem_cons_of_mem _ hfd) hnull
          obtain ⟨s', hrun, hfilled, hslots⟩ := ih hl hrefs₁
            (fun f' => add_nonneg (hheld f') (by rw [one]; split <;> simp)) huses₁
            (show p ∈ s₁.live by rwa [hslots₁.2.2]) (show c ∉ s₁.live by rwa [hslots₁.2.2])
            ((hslots₁.pointers hs).setSlot c i (by simp)) hstale₁
          refine ⟨s', ?_, ⟨hfilled.refs, heff₁.trans hfilled.effect, hfilled.live.trans hslots₁.2.2,
            fun q hq => (hfilled.slots q hq).trans (hother q hq)⟩, fun fd => ?_⟩
          · have hsame : s₁.ofile p i = .file f := by rw [hslots₁.1, hslot]
            simp only [hdup, reduceCtorEq, if_false, Option.map_some, hsame]
            exact hrun
          · rw [hslots, hother p hpc, hcslot]
            by_cases hfd : fd = i
            · subst hfd
              simp [hil, hslot]
            · simp [hfd]

/-- The memory of a new process does not count. -/
theorem Refs.newSlots (h : Refs s held) (hc : c ∉ s.live) (slots : Fin nofile → Slot) :
    Refs { s with
      ofile := Function.update s.ofile c slots
      vma := Function.update s.vma c [] } held := by
  intro f
  have hsame : OpenFiles.users { s with
      ofile := Function.update s.ofile c slots
      vma := Function.update s.vma c [] } f = s.users f := by
    refine Finset.sum_congr rfl fun q hq => ?_
    have hqc : q ≠ c := fun heq => hc (heq ▸ hq)
    simp [uses, hqc]
  rw [hsame]
  exact h f

/-- A process whose slots are filled begins to live. -/
theorem Filled.start (h : Filled c s s') (hc : c ∉ s.live) (hs : Pointers s)
    (hslots : ∀ fd word, s'.ofile c fd ≠ .other word) :
    FilesOk { s' with live := insert c s'.live } := by
  have hc' : c ∉ s'.live := by rwa [h.live]
  refine ⟨(h.refs.insert hc').congr (by simp), fun q hq fd word => ?_⟩
  rcases Finset.mem_insert.mp hq with rfl | hq
  · exact hslots fd word
  · have hqc : q ≠ c := fun heq => hc' (heq ▸ hq)
    simp only [h.slots q hqc]
    exact hs q (h.live ▸ hq) fd word

theorem FilesOk.fork (h : FilesOk s) (hp : p ∈ s.live) (hc : c ∉ s.live)
    {stale : Fin nofile → Slot} (hstale : ∀ fd, s.ofile p fd = .null → stale fd = .null) :
    ∃ s', s.fork p c stale = some s' ∧ FilesOk s' ∧ Closes s s' := by
  have hpc : p ≠ c := fun heq => hc (heq ▸ hp)
  set s₀ : OpenFiles ι := { s with
    ofile := Function.update s.ofile c stale
    vma := Function.update s.vma c [] } with hs₀
  have hsame : ∀ q, q ≠ c → s₀.ofile q = s.ofile q := fun q hq => by simp [hs₀, hq]
  have hvma : s₀.vma c = [] := Function.update_self ..
  have hptr : Pointers s₀ := fun q hq fd word => by
    rw [hsame q fun heq => hc (heq ▸ hq)]
    exact h.slots q hq fd word
  obtain ⟨s₁, hrun, hfilled, hslots⟩ := forkSlots (List.finRange nofile) (List.nodup_finRange _)
    (h.refs.newSlots hc stale) (fun _ => le_rfl)
    (fun f => by
      rw [cast_uses, hvma, List.count_nil, Nat.cast_zero, add_zero]
      exact zero_add _) hp hc hptr
    fun fd _ hnull => by
      rw [hsame p hpc] at hnull
      simpa [hs₀] using hstale fd hnull
  refine ⟨_, by rw [OpenFiles.fork, hrun]; rfl, hfilled.start hc hptr fun fd word => ?_, ?_⟩
  · rw [hslots, if_pos (List.mem_finRange fd), hsame p hpc]
    exact h.slots p hp fd word
  · exact hfilled.effect.closes

/-- The loop of `tcb_new`; `l` are the slots it still comes to. -/
theorem tcbSlots (l : List ℕ) (hl : (l.map (Fin.ofNat nofile)).Nodup) (hlt : ∀ i ∈ l, i < 3)
    (h : Refs s fun f => s.uses c f) (hc : c ∉ s.live)
    (hnull : ∀ i ∈ l, s.ofile c (Fin.ofNat nofile i) = .null)
    (hslots : ∀ fd word, s.ofile c fd ≠ .other word) :
    ∃ s', l.foldlM (tcbSlot c) s = some s' ∧ Filled c s s' ∧
      ∀ fd word, s'.ofile c fd ≠ .other word := by
  induction l generalizing s with
  | nil => exact ⟨s, rfl, ⟨h, Effect.refl s, rfl, fun _ _ => rfl⟩, hslots⟩
  | cons i l ih =>
      obtain ⟨hil, hl⟩ := List.nodup_cons.mp hl
      have hf : 1 ≤ (s.file (Fin.ofNat nfile i)).ref := by
        have hi := hlt i (by simp)
        have hboot : boot (Fin.ofNat nfile i) = 1 := by
          have hmod : i % nfile < 3 := by
            rw [Nat.mod_eq_of_lt (hi.trans (by decide))]
            exact hi
          simp [boot, hmod]
        have hrefs := h (Fin.ofNat nfile i)
        rw [hboot] at hrefs
        beta_reduce at hrefs
        omega
      obtain ⟨s₁, hdup, hrefs₁, hslots₁, heff₁⟩ := h.dupNew hc (Fin.ofNat nofile i) hf
      set s₂ := s₁.setSlot c (Fin.ofNat nofile i) (.file (Fin.ofNat nfile i)) with hs₂
      have hslot₂ : ∀ fd, s₂.ofile c fd =
          if fd = Fin.ofNat nofile i then .file (Fin.ofNat nfile i) else s.ofile c fd := fun fd => by
        by_cases hfd : fd = Fin.ofNat nofile i
        · simp [hs₂, OpenFiles.setSlot, hfd]
        · rw [if_neg hfd, hs₂, setSlot, hslots₁.1]
          simp only [Function.update_self, Function.update_of_ne hfd]
      have hrefs₂ : Refs s₂ fun f => s₂.uses c f := hrefs₁.congr fun f => by
        have hset := uses_setSlot s₁ c (Fin.ofNat nofile i) (.file (Fin.ofNat nfile i)) f
        have hone := refers_file (Fin.ofNat nfile i) f
        rw [hslots₁.uses, hslots₁.1, hnull i (by simp), Slot.refers_null, ← hs₂] at hset
        rw [Pi.add_apply]
        omega
      have hnull₂ : ∀ j ∈ l, s₂.ofile c (Fin.ofNat nofile j) = .null := fun j hj => by
        have hji : Fin.ofNat nofile j ≠ Fin.ofNat nofile i := fun heq =>
          hil (heq ▸ List.mem_map_of_mem hj)
        rw [hslot₂, if_neg hji]
        exact hnull j (List.mem_cons_of_mem _ hj)
      have hptr₂ : ∀ fd word, s₂.ofile c fd ≠ .other word := fun fd word => by
        rw [hslot₂]
        split
        · simp
        · exact hslots fd word
      obtain ⟨s', hrun, hfilled, hother⟩ := ih hl (fun j hj => hlt j (List.mem_cons_of_mem _ hj))
        hrefs₂ (show c ∉ s₁.live by rwa [hslots₁.2.2]) hnull₂ hptr₂
      refine ⟨s', ?_, ⟨hfilled.refs, heff₁.trans hfilled.effect, hfilled.live.trans hslots₁.2.2,
        fun q hq => ?_⟩, hother⟩
      · rw [List.foldlM_cons, tcbSlot, hdup]
        exact hrun
      · rw [hfilled.slots q hq]
        simp [hs₂, OpenFiles.setSlot, hq, hslots₁.1]

theorem FilesOk.tcbNew (h : FilesOk s) (hc : c ∉ s.live) :
    ∃ s', s.tcbNew c = some s' ∧ FilesOk s' ∧ Closes s s' := by
  set s₀ : OpenFiles ι := { s with
    ofile := Function.update s.ofile c fun _ => .null
    vma := Function.update s.vma c [] } with hs₀
  have hptr : Pointers s₀ := fun q hq fd word => by
    have hqc : q ≠ c := fun heq => hc (heq ▸ hq)
    simpa [hs₀, hqc] using h.slots q hq fd word
  have hrefs : Refs s₀ fun f => s₀.uses c f :=
    (h.refs.newSlots hc fun _ => .null).congr fun f => by simp [uses, hs₀]
  obtain ⟨s₁, hrun, hfilled, hslots⟩ := tcbSlots [0, 1, 2] (by decide) (by decide) hrefs hc
    (by simp [hs₀]) (by simp [hs₀])
  exact ⟨_, by rw [OpenFiles.tcbNew, hrun]; rfl, hfilled.start hc hptr hslots, hfilled.effect.closes⟩

/-! ## Runs -/

/-- The condition on a step: a process that exits has closed its descriptors 0 to 2 and
has no mmap area, and the memory of a new process is zero where a descriptor of its parent
is closed. -/
def Meets (s : OpenFiles ι) : FileOp ι → Prop
  | .fork p _ stale => ∀ fd, s.ofile p fd = .null → stale fd = .null
  | .exit p => (∀ fd : Fin nofile, fd.val < 3 → s.ofile p fd = .null) ∧ s.vma p = []
  | _ => True

/-- The number that `sys_mmap` gets is that of an open descriptor. -/
def Open (s : OpenFiles ι) : FileOp ι → Prop
  | .mmap p _ _ fd => s.argfd p fd ≠ none
  | _ => True

theorem FilesOk.step (h : FilesOk s) {op : FileOp ι} (hp : s.Permitted op) (hm : s.Meets op)
    (hopen : s.Open op) : ∃ s', s.fileStep op = some s' ∧ FilesOk s' ∧ Closes s s' := by
  cases op with
  | tcbNew c => exact h.tcbNew hp
  | «open» p ep readable writable =>
      obtain ⟨r, s', hrun, hok⟩ := h.fileopen hp ep readable writable
      exact ⟨s', by simp [fileStep, hrun], hok⟩
  | close p fd =>
      obtain ⟨r, s', hrun, hok⟩ := h.sysClose hp fd
      exact ⟨s', by simp [fileStep, hrun], hok⟩
  | dup p fd =>
      obtain ⟨r, s', hrun, hok⟩ := h.sysDup hp fd
      exact ⟨s', by simp [fileStep, hrun], hok⟩
  | dup3 p oldfd newfd =>
      obtain ⟨r, s', hrun, hok⟩ := h.sysDup3 hp oldfd newfd
      exact ⟨s', by simp [fileStep, hrun], hok⟩
  | pipe p heap copied =>
      obtain ⟨r, s', hrun, hok⟩ := h.sysPipe hp heap copied
      exact ⟨s', by simp [fileStep, hrun], hok⟩
  | mmap p prot flags fd =>
      obtain ⟨r, s', hrun, hok⟩ := h.sysMmap hp prot flags hopen
      exact ⟨s', by simp [fileStep, hrun], hok⟩
  | fork p c stale => exact h.fork hp.1 hp.2 hm
  | exit p => exact h.exit hp hm.1 hm.2

/-- What holds of a state. -/
structure FileLaws (s : OpenFiles ι) : Prop where
  count : ∀ f, (s.file f).ref = s.users f + boot f
  used : ∀ p ∈ s.live, ∀ fd f, s.ofile p fd = .file f → (s.file f).ref ≠ 0
  closes : ∀ op s', FileStep s op s' → s.Meets op → ∃ new, s'.closed = new ++ s.closed ∧
    ∀ f, s.users f ≠ 0 → (f ∈ new.map Prod.fst ↔ s'.users f + boot f = 0)
  steps : ∀ op, s.Permitted op → s.Meets op → s.Open op → ∃ s', FileStep s op s'

/-- A step that was taken had an open descriptor where it needs one. -/
theorem FileStep.open {op : FileOp ι} (h : FileStep s op s') : s.Open op := by
  cases op with
  | mmap p prot flags fd =>
      intro hnone
      have hrun := h.2
      simp [fileStep, sysMmap, hnone] at hrun
  | _ => trivial

theorem FilesOk.of_step (h : FilesOk s) {op : FileOp ι} (hstep : FileStep s op s')
    (hm : s.Meets op) : FilesOk s' ∧ Closes s s' := by
  obtain ⟨s'', hrun, hok⟩ := h.step hstep.1 hm hstep.open
  obtain rfl := Option.some.inj (hrun.symm.trans hstep.2)
  exact hok

omit [DecidableEq ι] in
theorem FilesOk.count (h : FilesOk s) (f : Fin nfile) : (s.file f).ref = s.users f + boot f := by
  have hrefs := h.refs f
  simp only [Pi.zero_apply, add_zero] at hrefs
  exact_mod_cast hrefs

theorem FilesOk.laws (h : FilesOk s) : FileLaws s := by
  refine ⟨h.count, fun p hp fd f hslot => ?_, fun op s' hstep hm => ?_, fun op hp hm hopen => ?_⟩
  · have hpos := h.ref_pos hp hslot
    omega
  · obtain ⟨hok, new, hnew, hiff⟩ := h.of_step hstep hm
    refine ⟨new, hnew, fun f hf => ?_⟩
    rw [hiff f (by rw [h.count]; omega), hok.count]
  · obtain ⟨s', hrun, -⟩ := h.step hp hm hopen
    exact ⟨s', hp, hrun⟩

instance (s : OpenFiles ι) : DecidablePred s.Permitted
  | .tcbNew c => inferInstanceAs (Decidable (c ∉ s.live))
  | .open p .. => inferInstanceAs (Decidable (p ∈ s.live))
  | .close p _ => inferInstanceAs (Decidable (p ∈ s.live))
  | .dup p _ => inferInstanceAs (Decidable (p ∈ s.live))
  | .dup3 p .. => inferInstanceAs (Decidable (p ∈ s.live))
  | .pipe p .. => inferInstanceAs (Decidable (p ∈ s.live))
  | .mmap p .. => inferInstanceAs (Decidable (p ∈ s.live))
  | .fork p c _ => inferInstanceAs (Decidable (p ∈ s.live ∧ c ∉ s.live))
  | .exit p => inferInstanceAs (Decidable (p ∈ s.live))

instance (s : OpenFiles ι) : DecidablePred s.Meets
  | .tcbNew _ => isTrue trivial
  | .open .. => isTrue trivial
  | .close .. => isTrue trivial
  | .dup .. => isTrue trivial
  | .dup3 .. => isTrue trivial
  | .pipe .. => isTrue trivial
  | .mmap .. => isTrue trivial
  | .fork p _ stale =>
      inferInstanceAs (Decidable (∀ fd, s.ofile p fd = .null → stale fd = .null))
  | .exit p => inferInstanceAs
      (Decidable ((∀ fd : Fin nofile, fd.val < 3 → s.ofile p fd = .null) ∧ s.vma p = []))

/-- A step that is taken where it is permitted and `P` holds. -/
def checkedStep (P : OpenFiles ι → FileOp ι → Prop) [∀ s, DecidablePred (P s)] (s : OpenFiles ι)
    (op : FileOp ι) : Option (OpenFiles ι) :=
  if s.Permitted op ∧ P s op then s.fileStep op else none

theorem of_checkedStep {P : OpenFiles ι → FileOp ι → Prop} [∀ s, DecidablePred (P s)]
    {op : FileOp ι} (h : checkedStep P s op = some s') : FileStep s op s' ∧ P s op := by
  rw [checkedStep] at h
  split at h
  · next hp => exact ⟨⟨hp.1, h⟩, hp.2⟩
  · cases h

def FreeNone (s : OpenFiles ι) : Prop := ∀ f, (s.file f).ref = 0 → (s.file f).type = .none

omit [DecidableEq ι] in
theorem FreeNone.setFile (h : FreeNone s) {file : File} (hfile : file.ref = 0 → file.type = .none) :
    FreeNone (s.setFile f file) := by
  intro g hg
  by_cases heq : g = f
  · subst heq
    simp only [OpenFiles.setFile, Function.update_self] at hg ⊢
    exact hfile hg
  · simp only [OpenFiles.setFile, Function.update_of_ne heq] at hg ⊢
    exact h g hg

omit [DecidableEq ι] in
/-- The first free entry is taken. -/
theorem filealloc_eq (halloc : s.filealloc = some (f, s')) :
    (s.file f).ref = 0 ∧ s' = s.setFile f { s.file f with ref := 1 } := by
  obtain ⟨g, hfind, heq⟩ := Option.map_eq_some_iff.mp halloc
  obtain ⟨rfl, rfl⟩ := Prod.mk.inj heq
  have hfree := List.find?_some hfind
  exact ⟨of_decide_eq_true hfree, rfl⟩

omit [DecidableEq ι] in
theorem FreeNone.filealloc (h : FreeNone s) (halloc : s.filealloc = some (f, s')) : FreeNone s' := by
  obtain ⟨-, rfl⟩ := filealloc_eq halloc
  exact h.setFile fun hzero => absurd hzero one_ne_zero

omit [DecidableEq ι] in
theorem FreeNone.filedup (h : FreeNone s) {slot : Slot} (hcall : s.filedup slot = some s') :
    FreeNone s' := by
  cases slot with
  | file f =>
      rw [OpenFiles.filedup] at hcall
      split at hcall
      · exact absurd hcall.symm (Option.some_ne_none _)
      · obtain rfl := Option.some.inj hcall
        exact h.setFile fun hzero => absurd hzero (Nat.succ_ne_zero _)
  | null => exact absurd hcall.symm (Option.some_ne_none _)
  | other word => exact absurd hcall.symm (Option.some_ne_none _)

omit [DecidableEq ι] in
theorem FreeNone.fileclose (h : FreeNone s) {slot : Slot} (hcall : s.fileclose slot = some s') :
    FreeNone s' := by
  cases slot with
  | file f =>
      rw [OpenFiles.fileclose] at hcall
      split at hcall
      · exact absurd hcall.symm (Option.some_ne_none _)
      split at hcall
      · rename_i hmore
        obtain rfl := Option.some.inj hcall
        exact h.setFile fun hzero => absurd hzero hmore.ne'
      · obtain rfl := Option.some.inj hcall
        exact h.setFile fun _ => rfl
  | null => exact absurd hcall.symm (Option.some_ne_none _)
  | other word => exact absurd hcall.symm (Option.some_ne_none _)

theorem FreeNone.fdalloc (h : FreeNone s) {slot : Slot} {fd : Fin nofile}
    (hcall : s.fdalloc p slot = some (fd, s')) : FreeNone s' := by
  obtain ⟨-, rfl⟩ := fdalloc_eq hcall
  exact h

theorem FreeNone.fileopen (h : FreeNone s) {ep : ℕ} {r w : Bool} {n : ℤ}
    (hcall : s.fileopen p ep r w = some (n, s')) : FreeNone s' := by
  rw [OpenFiles.fileopen] at hcall
  split at hcall
  · obtain ⟨-, rfl⟩ := Prod.mk.inj (Option.some.inj hcall)
    exact h
  · rename_i f s₁ halloc
    have h₁ := h.filealloc halloc
    obtain ⟨-, rfl⟩ := filealloc_eq halloc
    split at hcall
    · obtain ⟨s₂, hclose, heq⟩ := Option.map_eq_some_iff.mp hcall
      obtain ⟨-, rfl⟩ := Prod.mk.inj heq
      exact h₁.fileclose hclose
    · rename_i fd s₂ hfd
      obtain ⟨-, rfl⟩ := fdalloc_eq hfd
      obtain ⟨-, rfl⟩ := Prod.mk.inj (Option.some.inj hcall)
      refine FreeNone.setFile ?_ fun hzero => ?_
      · exact h₁
      · simp [OpenFiles.setSlot, OpenFiles.setFile] at hzero

theorem FreeNone.sysClose (h : FreeNone s) {fd n : ℤ} (hcall : s.sysClose p fd = some (n, s')) :
    FreeNone s' := by
  rw [OpenFiles.sysClose] at hcall
  split at hcall
  · obtain ⟨-, rfl⟩ := Prod.mk.inj (Option.some.inj hcall)
    exact h
  · obtain ⟨s₁, hclose, heq⟩ := Option.map_eq_some_iff.mp hcall
    obtain ⟨-, rfl⟩ := Prod.mk.inj heq
    refine FreeNone.fileclose ?_ hclose
    exact h

omit [DecidableEq ι] in
theorem FreeNone.pipealloc (h : FreeNone s) {heap : Option ℕ} {found : Option (Fin nfile × Fin nfile)}
    (hcall : s.pipealloc heap = some (found, s')) : FreeNone s' := by
  rw [OpenFiles.pipealloc] at hcall
  split at hcall
  · obtain ⟨-, rfl⟩ := Prod.mk.inj (Option.some.inj hcall)
    exact h
  rename_i f0 s₁ halloc
  have h₁ := h.filealloc halloc
  obtain ⟨-, hs₁⟩ := filealloc_eq halloc
  split at hcall
  · obtain ⟨s₂, hclose, heq⟩ := Option.map_eq_some_iff.mp hcall
    obtain ⟨-, rfl⟩ := Prod.mk.inj heq
    exact h₁.fileclose hclose
  rename_i f1 s₂ halloc₂
  have h₂ := h₁.filealloc halloc₂
  obtain ⟨hfree, rfl⟩ := filealloc_eq halloc₂
  have hone : (s₁.file f0).ref = 1 := by simp [hs₁, OpenFiles.setFile]
  have hne : f0 ≠ f1 := by
    rintro rfl
    omega
  cases heap with
  | none =>
      obtain ⟨s₃, hclose, hrest⟩ := Option.bind_eq_some_iff.mp hcall
      obtain ⟨s₄, hclose₂, heq⟩ := Option.map_eq_some_iff.mp hrest
      obtain ⟨-, rfl⟩ := Prod.mk.inj heq
      exact (h₂.fileclose hclose).fileclose hclose₂
  | some pipe =>
      obtain ⟨-, rfl⟩ := Prod.mk.inj (Option.some.inj hcall)
      refine FreeNone.setFile (h₂.setFile fun hzero => ?_) fun hzero => ?_
      · simp [OpenFiles.setFile, hne, hone] at hzero
      · simp [OpenFiles.setFile, hne.symm] at hzero

omit [DecidableEq ι] in
theorem FreeNone.closeBoth (h : FreeNone s) {rf wf : Fin nfile} {n : ℤ}
    (hcall : s.closeBoth rf wf = some (n, s')) : FreeNone s' := by
  obtain ⟨s₁, hclose, hrest⟩ := Option.bind_eq_some_iff.mp hcall
  obtain ⟨s₂, hclose₂, heq⟩ := Option.map_eq_some_iff.mp hrest
  obtain ⟨-, rfl⟩ := Prod.mk.inj heq
  exact (h.fileclose hclose).fileclose hclose₂

theorem FreeNone.sysPipe (h : FreeNone s) {heap : Option ℕ} {copied : Bool} {n : ℤ}
    (hcall : s.sysPipe p heap copied = some (n, s')) : FreeNone s' := by
  obtain ⟨⟨found, s₁⟩, halloc, hcall⟩ := Option.bind_eq_some_iff.mp hcall
  have h₁ := h.pipealloc halloc
  cases found with
  | none =>
      obtain ⟨-, rfl⟩ := Prod.mk.inj (Option.some.inj hcall)
      exact h₁
  | some both =>
      dsimp only at hcall
      split at hcall
      · exact h₁.closeBoth hcall
      · rename_i hfd
        have h₂ := h₁.fdalloc hfd
        split at hcall
        · refine FreeNone.closeBoth ?_ hcall
          exact h₂
        · rename_i hfd₂
          have h₃ := h₂.fdalloc hfd₂
          split at hcall
          · obtain ⟨-, rfl⟩ := Prod.mk.inj (Option.some.inj hcall)
            exact h₃
          · refine FreeNone.closeBoth ?_ hcall
            exact h₃

omit [DecidableEq ι] in
theorem FreeNone.foldlM {α : Type*} {step : OpenFiles ι → α → Option (OpenFiles ι)}
    (hstep : ∀ s a s', FreeNone s → step s a = some s' → FreeNone s') {l : List α}
    (h : FreeNone s) (hcall : l.foldlM step s = some s') : FreeNone s' := by
  induction l generalizing s with
  | nil => exact Option.some.inj hcall ▸ h
  | cons a l ih =>
      obtain ⟨s₁, hfirst, hrest⟩ := Option.bind_eq_some_iff.mp hcall
      exact ih (hstep s a s₁ h hfirst) hrest

theorem FreeNone.fileStep (h : FreeNone s) {op : FileOp ι} (hcall : s.fileStep op = some s') :
    FreeNone s' := by
  cases op with
  | tcbNew c =>
      obtain ⟨s₁, hfold, rfl⟩ := Option.map_eq_some_iff.mp hcall
      have hslots : ∀ s i s', FreeNone s → tcbSlot c s i = some s' → FreeNone s' := by
        intro s i s' hs hslot
        obtain ⟨s₂, hdup, rfl⟩ := Option.map_eq_some_iff.mp hslot
        have h₂ := hs.filedup hdup
        exact h₂
      have hend := FreeNone.foldlM hslots ?_ hfold
      · exact hend
      · exact h
  | «open» p ep r w =>
      obtain ⟨⟨n, s₁⟩, hopen, rfl⟩ := Option.map_eq_some_iff.mp hcall
      exact h.fileopen hopen
  | close p fd =>
      obtain ⟨⟨n, s₁⟩, hclose, rfl⟩ := Option.map_eq_some_iff.mp hcall
      exact h.sysClose hclose
  | dup p fd =>
      obtain ⟨⟨n, s₁⟩, hdup, rfl⟩ := Option.map_eq_some_iff.mp hcall
      rw [OpenFiles.sysDup] at hdup
      split at hdup
      · obtain ⟨-, rfl⟩ := Prod.mk.inj (Option.some.inj hdup)
        exact h
      split at hdup
      · obtain ⟨-, rfl⟩ := Prod.mk.inj (Option.some.inj hdup)
        exact h
      · rename_i hfd
        obtain ⟨s₂, hup, heq⟩ := Option.map_eq_some_iff.mp hdup
        obtain ⟨-, rfl⟩ := Prod.mk.inj heq
        exact (h.fdalloc hfd).filedup hup
  | dup3 p oldfd newfd =>
      obtain ⟨⟨n, s₁⟩, hdup, rfl⟩ := Option.map_eq_some_iff.mp hcall
      have hset : ∀ slot, FreeNone (s.fdalloc2 p slot newfd).2 := by
        intro slot
        rw [OpenFiles.fdalloc2]
        split <;> exact h
      rw [OpenFiles.sysDup3] at hdup
      split at hdup
      · obtain ⟨-, rfl⟩ := Prod.mk.inj (Option.some.inj hdup)
        exact h
      split at hdup
      · obtain ⟨-, rfl⟩ := Prod.mk.inj (Option.some.inj hdup)
        exact h
      · rename_i slot _ _
        dsimp only at hdup
        split at hdup
        · obtain ⟨s₂, hup, heq⟩ := Option.map_eq_some_iff.mp hdup
          obtain ⟨-, rfl⟩ := Prod.mk.inj heq
          exact (hset slot).filedup hup
        · obtain ⟨-, rfl⟩ := Prod.mk.inj (Option.some.inj hdup)
          exact hset slot
  | pipe p heap copied =>
      obtain ⟨⟨n, s₁⟩, hpipe, rfl⟩ := Option.map_eq_some_iff.mp hcall
      exact h.sysPipe hpipe
  | mmap p prot flags fd =>
      obtain ⟨⟨b, s₁⟩, hmmap, rfl⟩ := Option.map_eq_some_iff.mp hcall
      rw [OpenFiles.sysMmap] at hmmap
      split at hmmap
      · split at hmmap
        · obtain ⟨-, rfl⟩ := Prod.mk.inj (Option.some.inj hmmap)
          exact h
        split at hmmap
        · obtain ⟨-, rfl⟩ := Prod.mk.inj (Option.some.inj hmmap)
          exact h
        · obtain ⟨s₂, hup, heq⟩ := Option.map_eq_some_iff.mp hmmap
          obtain ⟨-, rfl⟩ := Prod.mk.inj heq
          refine FreeNone.filedup ?_ hup
          exact h
      · exact absurd hmmap.symm (Option.some_ne_none _)
  | fork p c stale =>
      obtain ⟨s₁, hfold, rfl⟩ := Option.map_eq_some_iff.mp hcall
      have hslots : ∀ s fd s', FreeNone s → forkSlot p c s fd = some s' → FreeNone s' := by
        intro s fd s' hs hslot
        rw [forkSlot] at hslot
        split at hslot
        · exact Option.some.inj hslot ▸ hs
        · obtain ⟨s₂, hdup, rfl⟩ := Option.map_eq_some_iff.mp hslot
          have h₂ := hs.filedup hdup
          exact h₂
      have hend := FreeNone.foldlM hslots ?_ hfold
      · exact hend
      · exact h
  | exit p =>
      obtain ⟨s₁, hfold, rfl⟩ := Option.map_eq_some_iff.mp hcall
      have hslots : ∀ s fd s', FreeNone s → exitSlot p s fd = some s' → FreeNone s' := by
        intro s fd s' hs hslot
        rw [exitSlot] at hslot
        split at hslot
        · exact Option.some.inj hslot ▸ hs
        · obtain ⟨s₂, hclose, rfl⟩ := Option.map_eq_some_iff.mp hslot
          have h₂ := hs.fileclose hclose
          exact h₂
      have hend := FreeNone.foldlM hslots h hfold
      exact hend

theorem freeNone_of_run {ops : List (FileOp ι)} (hrun : Run FileStep fileinit ops s) :
    FreeNone s := by
  apply hrun.invariant fun s op s' hs hstep => hs.fileStep hstep.2
  intro f hzero
  rw [fileinit] at hzero ⊢
  dsimp only at hzero ⊢
  by_cases hdevice : f.val < 3
  · rw [if_pos hdevice] at hzero
    exact absurd hzero one_ne_zero
  · rw [if_neg hdevice]

end OpenFiles

end K210Os
