import K210Os.Pipe
import Mathlib.Data.List.Induction
import Mathlib.Data.List.Nodup

/-!
# A pipe is a queue of bytes

Along every run the bytes delivered to readers, followed by those still in the pipe, are
the bytes accepted from writers. Every turn that can come is carried out: the tasks in
the two queues are exactly those asleep in the pipe, so no wake-up panics.
-/

namespace K210Os

open RingBuffer Transition

def PipePhase.asleep : PipePhase → Bool
  | .out => false
  | .writing _ _ _ asleep => asleep
  | .reading _ _ asleep => asleep

/-- The user buffer of a call is valid: every byte of it is copied. -/
def PipePhase.Valid : PipePhase → Prop
  | .out => True
  | .writing addr n i _ => i ≤ n ∧ ∀ k < n, (addr k).isSome = true
  | .reading addr n _ => ∀ k < n, addr k = true

def PipeOp.Valid {ι : Type*} : PipeOp ι → Prop
  | .write _ addr n _ => ∀ k < n.toNat, (addr k).isSome = true
  | .read _ addr n _ => ∀ k < n.toNat, addr k = true
  | .resume _ _ => True
  | .close _ => True

namespace PipeSystem

variable {ι : Type*} {s s' : PipeSystem ι} {t : ι} {n i left : ℕ} {killed : Bool}

/-- The bytes in the pipe, the oldest first. -/
def content (s : PipeSystem ι) : List Byte := s.pipe.contents pipeSize

/-- The invariant of a pipe whose callers pass valid buffers. -/
structure PipeOk (s : PipeSystem ι) : Prop where
  fifo : s.delivered ++ s.content = s.accepted
  size : s.pipe.length ≤ pipeSize
  readers : ∀ t, t ∈ s.pipe.rwaiter ↔ ∃ addr n, s.phase t = .reading addr n true
  writers : ∀ t, t ∈ s.pipe.wwaiter ↔ ∃ addr n i, s.phase t = .writing addr n i true
  readers_nodup : s.pipe.rwaiter.Nodup
  writers_nodup : s.pipe.wwaiter.Nodup
  buffers : ∀ t, (s.phase t).Valid

theorem pipealloc_ok (data : ℕ → Byte) : PipeOk (pipealloc data : PipeSystem ι) := by
  constructor <;> simp [pipealloc, content, Ring.contents, Ring.length, PipePhase.Valid]

/-! ## Moving bytes -/

theorem PipeOk.put (h : PipeOk s) (hfull : s.pipe.length ≠ pipeSize) (ch : Byte) :
    PipeOk (s.put ch) := by
  have hlt : s.pipe.length < pipeSize := Nat.lt_of_le_of_ne h.size hfull
  have hdvd : pipeSize ∣ 2 ^ 32 := by decide
  have hcap : pipeSize < 2 ^ 32 := by decide
  refine ⟨?_, ?_, h.readers, h.writers, h.readers_nodup, h.writers_nodup, h.buffers⟩
  · have hcontent : (s.put ch).content = s.content ++ [ch] := Ring.push_contents hdvd hcap hlt ch
    rw [hcontent]
    simp only [PipeSystem.put]
    rw [← List.append_assoc, h.fifo]
  · have hlen : (s.put ch).pipe.length = s.pipe.length + 1 := Ring.push_length hcap hlt ch
    omega

theorem PipeOk.pipereadLoop {addr : ℕ → Bool} (h : PipeOk s)
    (haddr : ∀ k < n, addr k = true) (hi : i + left = n) :
    PipeOk (PipeSystem.pipereadLoop addr left s i).2 ∧
      (PipeSystem.pipereadLoop addr left s i).2.phase = s.phase := by
  induction left generalizing s i with
  | zero => exact ⟨h, rfl⟩
  | succ left ih =>
      rw [PipeSystem.pipereadLoop]
      split
      · exact ⟨h, rfl⟩
      next hne =>
        have hpos : 0 < s.pipe.length := by
          rw [Nat.pos_iff_ne_zero, Ne, Ring.length_eq_zero_iff]
          exact hne
        have hdvd : pipeSize ∣ 2 ^ 32 := by decide
        simp only [haddr i (by omega), if_true]
        refine ih ⟨?_, ?_, h.readers, h.writers, h.readers_nodup, h.writers_nodup, h.buffers⟩
          (by omega)
        · have hfifo := h.fifo
          rw [content, Ring.pop_contents hdvd hpos] at hfifo
          simpa [content] using hfifo
        · have hlen := Ring.pop_length pipeSize hpos
          have hsize := h.size
          simp only
          omega

/-! ## Sleeping and waking -/

/-- What is not about queues and tasks stays. -/
structure SameBytes (s s' : PipeSystem ι) : Prop where
  ring : s'.pipe.toRing = s.pipe.toRing
  accepted : s'.accepted = s.accepted
  delivered : s'.delivered = s.delivered

theorem SameBytes.fifo (h : SameBytes s s') (hs : s.delivered ++ s.content = s.accepted) :
    s'.delivered ++ s'.content = s'.accepted := by
  rw [h.delivered, h.accepted, content, h.ring]
  exact hs

theorem SameBytes.size (h : SameBytes s s') (hs : s.pipe.length ≤ pipeSize) :
    s'.pipe.length ≤ pipeSize := by
  rw [h.ring]
  exact hs

/-- A task that does not sleep is in no queue. -/
theorem PipeOk.awake (h : PipeOk s) (ht : (s.phase t).asleep = false) :
    t ∉ s.pipe.rwaiter ∧ t ∉ s.pipe.wwaiter := by
  constructor
  · intro hmem
    obtain ⟨addr, n, hp⟩ := (h.readers t).mp hmem
    simp [hp, PipePhase.asleep] at ht
  · intro hmem
    obtain ⟨addr, n, i, hp⟩ := (h.writers t).mp hmem
    simp [hp, PipePhase.asleep] at ht

variable [DecidableEq ι]

theorem PipeOk.wakeupReader (h : PipeOk s) :
    ∃ s', s.wakeupReader = some s' ∧ PipeOk s' ∧
      ∀ t, (s.phase t).asleep = false → s'.phase t = s.phase t := by
  rw [PipeSystem.wakeupReader]
  cases hq : s.pipe.rwaiter with
  | nil => exact ⟨s, rfl, h, fun _ _ => rfl⟩
  | cons p rwaiter =>
      obtain ⟨addr, n, hp⟩ := (h.readers p).mp (by simp [hq])
      have hnodup := h.readers_nodup
      rw [hq] at hnodup
      obtain ⟨hfresh, hnodup⟩ := List.nodup_cons.mp hnodup
      simp only [hp, PipePhase.wake, Option.map_some]
      refine ⟨_, rfl, ⟨?_, ?_, fun t => ?_, fun t => ?_, hnodup, h.writers_nodup, fun t => ?_⟩,
        fun t ht => ?_⟩
      · exact SameBytes.fifo (s := s) ⟨rfl, rfl, rfl⟩ h.fifo
      · exact SameBytes.size (s := s) ⟨rfl, rfl, rfl⟩ h.size
      · have hold := h.readers t
        rw [hq, List.mem_cons] at hold
        by_cases htp : t = p
        · subst htp
          simp [hfresh]
        · simp only [Function.update_of_ne htp, ← hold, htp, false_or]
      · have hold := h.writers t
        by_cases htp : t = p
        · subst htp
          simp only [Function.update_self]
          simp [hold, hp]
        · simpa [Function.update_of_ne htp] using hold
      · have hold := h.buffers t
        by_cases htp : t = p
        · subst htp
          rw [hp] at hold
          simpa [PipePhase.Valid] using hold
        · simpa [Function.update_of_ne htp] using hold
      · have htp : t ≠ p := by
          rintro rfl
          simp [hp, PipePhase.asleep] at ht
        simp [Function.update_of_ne htp]

theorem PipeOk.wakeupWriter (h : PipeOk s) :
    ∃ s', s.wakeupWriter = some s' ∧ PipeOk s' ∧
      ∀ t, (s.phase t).asleep = false → s'.phase t = s.phase t := by
  rw [PipeSystem.wakeupWriter]
  cases hq : s.pipe.wwaiter with
  | nil => exact ⟨s, rfl, h, fun _ _ => rfl⟩
  | cons p wwaiter =>
      obtain ⟨addr, n, i, hp⟩ := (h.writers p).mp (by simp [hq])
      have hnodup := h.writers_nodup
      rw [hq] at hnodup
      obtain ⟨hfresh, hnodup⟩ := List.nodup_cons.mp hnodup
      simp only [hp, PipePhase.wake, Option.map_some]
      refine ⟨_, rfl, ⟨?_, ?_, fun t => ?_, fun t => ?_, h.readers_nodup, hnodup, fun t => ?_⟩,
        fun t ht => ?_⟩
      · exact SameBytes.fifo (s := s) ⟨rfl, rfl, rfl⟩ h.fifo
      · exact SameBytes.size (s := s) ⟨rfl, rfl, rfl⟩ h.size
      · have hold := h.readers t
        by_cases htp : t = p
        · subst htp
          simp only [Function.update_self]
          simp [hold, hp]
        · simpa [Function.update_of_ne htp] using hold
      · have hold := h.writers t
        rw [hq, List.mem_cons] at hold
        by_cases htp : t = p
        · subst htp
          simp [hfresh]
        · simp only [Function.update_of_ne htp, ← hold, htp, false_or]
      · have hold := h.buffers t
        by_cases htp : t = p
        · subst htp
          rw [hp] at hold
          simpa [PipePhase.Valid] using hold
        · simpa [Function.update_of_ne htp] using hold
      · have htp : t ≠ p := by
          rintro rfl
          simp [hp, PipePhase.asleep] at ht
        simp [Function.update_of_ne htp]

theorem PipeOk.leave (h : PipeOk s) (ht : (s.phase t).asleep = false) : PipeOk (s.leave t) := by
  obtain ⟨hr, hw⟩ := h.awake ht
  refine ⟨SameBytes.fifo (s := s) ⟨rfl, rfl, rfl⟩ h.fifo, h.size, fun u => ?_, fun u => ?_,
    h.readers_nodup, h.writers_nodup, fun u => ?_⟩
  · by_cases hu : u = t
    · subst hu
      simp [PipeSystem.leave, hr]
    · simpa [PipeSystem.leave, Function.update_of_ne hu] using h.readers u
  · by_cases hu : u = t
    · subst hu
      simp [PipeSystem.leave, hw]
    · simpa [PipeSystem.leave, Function.update_of_ne hu] using h.writers u
  · by_cases hu : u = t
    · subst hu
      simp [PipeSystem.leave, PipePhase.Valid]
    · simpa [PipeSystem.leave, Function.update_of_ne hu] using h.buffers u

theorem PipeOk.sleepWriting {addr : ℕ → Option Byte} (h : PipeOk s)
    (ht : (s.phase t).asleep = false) (hi : i ≤ n) (haddr : ∀ k < n, (addr k).isSome = true) :
    PipeOk (s.sleepWriting t addr n i) := by
  obtain ⟨hr, hw⟩ := h.awake ht
  refine ⟨SameBytes.fifo (s := s) ⟨rfl, rfl, rfl⟩ h.fifo, h.size, fun u => ?_, fun u => ?_,
    h.readers_nodup, ?_, fun u => ?_⟩
  · by_cases hu : u = t
    · subst hu
      simp [PipeSystem.sleepWriting, hr]
    · simpa [PipeSystem.sleepWriting, Function.update_of_ne hu] using h.readers u
  · by_cases hu : u = t
    · subst hu
      simp [PipeSystem.sleepWriting]
    · simpa [PipeSystem.sleepWriting, Function.update_of_ne hu, hu] using h.writers u
  · exact List.nodup_append.mpr ⟨h.writers_nodup, List.nodup_singleton t, by
      simpa using fun a ha (heq : a = t) => hw (heq ▸ ha)⟩
  · by_cases hu : u = t
    · subst hu
      simpa [PipeSystem.sleepWriting, PipePhase.Valid] using ⟨hi, haddr⟩
    · simpa [PipeSystem.sleepWriting, Function.update_of_ne hu] using h.buffers u

theorem PipeOk.sleepReading {addr : ℕ → Bool} (h : PipeOk s)
    (ht : (s.phase t).asleep = false) (haddr : ∀ k < n, addr k = true) :
    PipeOk (s.sleepReading t addr n) := by
  obtain ⟨hr, hw⟩ := h.awake ht
  refine ⟨SameBytes.fifo (s := s) ⟨rfl, rfl, rfl⟩ h.fifo, h.size, fun u => ?_, fun u => ?_,
    ?_, h.writers_nodup, fun u => ?_⟩
  · by_cases hu : u = t
    · subst hu
      simp [PipeSystem.sleepReading]
    · simpa [PipeSystem.sleepReading, Function.update_of_ne hu, hu] using h.readers u
  · by_cases hu : u = t
    · subst hu
      simp [PipeSystem.sleepReading, hw]
    · simpa [PipeSystem.sleepReading, Function.update_of_ne hu] using h.writers u
  · exact List.nodup_append.mpr ⟨h.readers_nodup, List.nodup_singleton t, by
      simpa using fun a ha (heq : a = t) => hr (heq ▸ ha)⟩
  · by_cases hu : u = t
    · subst hu
      simpa [PipeSystem.sleepReading, PipePhase.Valid] using haddr
    · simpa [PipeSystem.sleepReading, Function.update_of_ne hu] using h.buffers u

/-! ## The calls -/

theorem PipeOk.pipewriteLoop {addr : ℕ → Option Byte} (h : PipeOk s)
    (ht : (s.phase t).asleep = false) (haddr : ∀ k < n, (addr k).isSome = true)
    (hi : i + left = n) :
    ∃ r s', pipewriteLoop t addr n killed left s i = some (r, s') ∧ PipeOk s' := by
  induction left generalizing s i with
  | zero =>
      obtain ⟨s₁, hrun, h₁, hsame⟩ := h.wakeupReader
      exact ⟨_, _, by rw [PipeSystem.pipewriteLoop, hrun]; rfl, h₁.leave (by rw [hsame t ht, ht])⟩
  | succ left ih =>
      rw [PipeSystem.pipewriteLoop]
      split
      · split
        · exact ⟨_, _, rfl, h.leave ht⟩
        · obtain ⟨s₁, hrun, h₁, hsame⟩ := h.wakeupReader
          exact ⟨_, _, by rw [hrun]; rfl, h₁.sleepWriting (by rw [hsame t ht, ht]) (by omega) haddr⟩
      next hfull =>
        obtain ⟨ch, hch⟩ := Option.isSome_iff_exists.mp (haddr i (by omega))
        simp only [hch]
        refine ih (h.put ?_ ch) ht (by omega)
        rwa [Ne, ← Ring.length_eq_cap_iff (by decide)]

theorem PipeOk.piperead {addr : ℕ → Bool} (h : PipeOk s) (ht : (s.phase t).asleep = false)
    (haddr : ∀ k < n, addr k = true) :
    ∃ r s', piperead t addr n killed s = some (r, s') ∧ PipeOk s' := by
  rw [PipeSystem.piperead]
  split
  · split
    · exact ⟨_, _, rfl, h.leave ht⟩
    · exact ⟨_, _, rfl, h.sleepReading ht haddr⟩
  · obtain ⟨h₁, hphase⟩ := h.pipereadLoop haddr (Nat.zero_add n)
    obtain ⟨s₂, hrun, h₂, hsame⟩ := h₁.wakeupWriter
    refine ⟨_, _, by simp only [hrun]; rfl, h₂.leave ?_⟩
    rw [hsame t (by rw [hphase, ht]), hphase, ht]

/-! ## Runs -/

/-- Every turn that can come is carried out and keeps the invariant. -/
theorem PipeOk.step (h : PipeOk s) {op : PipeOp ι} (hp : s.Permitted op) (hv : op.Valid) :
    ∃ r s', s.pipeStep op = some (r, s') ∧ PipeOk s' := by
  cases op with
  | write t addr n killed =>
      exact h.pipewriteLoop (by rw [hp.1]; rfl) hv (Nat.zero_add _)
  | read t addr n killed => exact h.piperead (by rw [hp.1]; rfl) hv
  | resume t killed =>
      have hbuf := h.buffers t
      rcases hp with ⟨addr, n, i, hphase⟩ | ⟨addr, n, hphase⟩
      · rw [hphase] at hbuf
        simp only [pipeStep, hphase]
        exact h.pipewriteLoop (by rw [hphase]; rfl) hbuf.2 (Nat.add_sub_cancel' hbuf.1)
      · rw [hphase] at hbuf
        simp only [pipeStep, hphase]
        exact h.piperead (by rw [hphase]; rfl) hbuf
  | close writable =>
      have hclosed : ∀ r w, PipeOk
          { s with pipe := { s.pipe with readopen := r, writeopen := w } } := fun r w =>
        ⟨h.fifo, h.size, h.readers, h.writers, h.readers_nodup, h.writers_nodup, h.buffers⟩
      cases writable with
      | true =>
          obtain ⟨s', hrun, hs', -⟩ := (hclosed s.pipe.readopen false).wakeupReader
          exact ⟨some 0, s', by simp [pipeStep, pipeclose, hrun], hs'⟩
      | false =>
          obtain ⟨s', hrun, hs', -⟩ := (hclosed false s.pipe.writeopen).wakeupWriter
          exact ⟨some 0, s', by simp [pipeStep, pipeclose, hrun], hs'⟩

theorem ok_of_run {data : ℕ → Byte} {ls : List (PipeOp ι × Option ℤ)}
    (hrun : Run PipeStep (pipealloc data) ls s) (hvalid : ∀ l ∈ ls, l.1.Valid) : PipeOk s := by
  induction ls using List.reverseRecOn generalizing s with
  | nil =>
      cases hrun
      exact pipealloc_ok data
  | append_singleton ls l ih =>
      obtain ⟨u, hu, hp, hstep⟩ := hrun.snoc_inv
      have hok := ih hu fun a ha => hvalid a (List.mem_append_left _ ha)
      obtain ⟨r, s', hs', h'⟩ := hok.step hp (hvalid l (by simp))
      obtain ⟨-, rfl⟩ : _ ∧ s' = s := by simpa using hs'.symm.trans hstep
      exact h'

/-- Whatever the tasks do and in whatever order: what was delivered, followed by the
`nwrite - nread` bytes still in `data`, is what was accepted, and at most `PIPESIZE`
bytes are in the pipe. Every turn that can come is carried out. -/
theorem pipe_is_fifo {data : ℕ → Byte} {ls : List (PipeOp ι × Option ℤ)}
    (hrun : Run PipeStep (pipealloc data) ls s) (hvalid : ∀ l ∈ ls, l.1.Valid) :
    (s.delivered ++ (List.range (s.pipe.nwrite - s.pipe.nread).toNat).map fun k =>
        s.pipe.data ((s.pipe.nread.toNat + k) % pipeSize)) = s.accepted ∧
      (s.pipe.nwrite - s.pipe.nread).toNat ≤ pipeSize ∧
      ∀ op, s.Permitted op → op.Valid → ∃ r s', PipeStep s (op, r) s' := by
  have h := ok_of_run hrun hvalid
  refine ⟨h.fifo, h.size, fun op hp hv => ?_⟩
  obtain ⟨r, s', hstep, -⟩ := h.step hp hv
  exact ⟨r, s', hp, hstep⟩

/-- Task `false` writes two bytes, which task `true` reads. -/
theorem pipe_is_fifo_two_bytes :
    ∃ s, Run PipeStep (pipealloc fun _ => 0)
        [(.write false (fun k => some (k + 7)) 2 false, some 2),
          (.read true (fun _ => true) 5 false, some 2)] s ∧
      (s.delivered ++ (List.range (s.pipe.nwrite - s.pipe.nread).toNat).map fun k =>
        s.pipe.data ((s.pipe.nread.toNat + k) % pipeSize)) = s.accepted ∧
      (s.pipe.nwrite - s.pipe.nread).toNat ≤ pipeSize ∧
      ∀ op, s.Permitted op → op.Valid → ∃ r s', PipeStep s (op, r) s' := by
  have hrun : ∃ s, Run PipeStep (pipealloc fun _ => 0)
      [(.write false (fun k => some (k + 7)) 2 false, some 2),
        (.read true (fun _ => true) 5 false, some 2)] s :=
    ⟨_, .step ⟨⟨rfl, rfl⟩, rfl⟩ (.single ⟨⟨rfl, rfl⟩, rfl⟩)⟩
  obtain ⟨s, hrun⟩ := hrun
  exact ⟨s, hrun, pipe_is_fifo hrun (by simp [PipeOp.Valid])⟩

end PipeSystem

end K210Os
