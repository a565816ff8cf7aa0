import K210Os.PipeRuns

/-!
# Copies that fail

A `piperead` whose `copyout2` fails has taken the byte out of the pipe already. A `pipewrite`
puts a byte in only after `copyin2` has delivered it, and may sleep before it comes to the byte
that fails.
-/

namespace K210Os

open RingBuffer

def PipeOp.task {ι : Type*} : PipeOp ι → Option ι
  | .write t _ _ _ => some t
  | .read t _ _ _ => some t
  | .resume t _ => some t
  | .close _ => none

namespace PipeSystem

variable {ι : Type*} {s s' : PipeSystem ι} {t u : ι} {n k i left : ℕ} {killed : Bool}

/-- `copyout2` takes the first `k` bytes and refuses the next one, which is there. -/
structure RefusedAt (s : PipeSystem ι) (addr : ℕ → Bool) (n k : ℕ) : Prop where
  lt : k < n
  lt_length : k < s.pipe.length
  taken : ∀ j < k, addr j = true
  refused : addr k = false

/-- The first `k` bytes of the pipe are gone. -/
def Takes (s : PipeSystem ι) (k : ℕ) (s' : PipeSystem ι) : Prop :=
  s'.pipe.nread = s.pipe.nread + BitVec.ofNat 32 k ∧ s'.content = s.content.drop k

theorem content_length (s : PipeSystem ι) : s.content.length = s.pipe.length := by
  rw [content, Ring.contents, List.length_map, List.length_range]

/-- The loop takes one byte more than it delivers. -/
theorem pipereadLoop_refused {addr : ℕ → Bool} (hleft : k < left) (hlen : k < s.pipe.length)
    (htaken : ∀ j < k, addr (i + j) = true) (hrefused : addr (i + k) = false) :
    ∃ ring delivered, pipereadLoop addr left s i =
        (i + k, { s with pipe := { s.pipe with toRing := ring }, delivered := delivered }) ∧
      ring.nread = s.pipe.nread + BitVec.ofNat 32 (k + 1) ∧
      ring.contents pipeSize = s.content.drop (k + 1) := by
  induction left generalizing s i k with
  | zero => exact absurd hleft (Nat.not_lt_zero k)
  | succ left ih =>
      have hne : s.pipe.nread ≠ s.pipe.nwrite := by
        rw [Ne, ← Ring.length_eq_zero_iff]
        omega
      have hpos : 0 < s.pipe.length := by omega
      have hcontent : s.content = _ := 
        Ring.pop_contents (show pipeSize ∣ 2 ^ 32 by decide) hpos
      rw [pipereadLoop, if_neg hne]
      cases k with
      | zero =>
          dsimp only
          rw [if_neg (by rw [← Nat.add_zero i, hrefused]; exact Bool.false_ne_true)]
          refine ⟨_, _, rfl, rfl, ?_⟩
          rw [hcontent]
          rfl
      | succ k =>
          have hlength := Ring.pop_length pipeSize hpos
          have hsum : BitVec.ofNat 32 (k + 1 + 1) = 1 + BitVec.ofNat 32 (k + 1) := by
            rw [Nat.add_comm, BitVec.ofNat_add]
            rfl
          dsimp only
          rw [if_pos (show addr i = true from htaken 0 (Nat.succ_pos k))]
          obtain ⟨ring, delivered, hloop, hread, hrest⟩ := ih
            (s := { s with
              pipe := { s.pipe with toRing := (Ring.pop pipeSize s.pipe.toRing).2 }
              delivered := s.delivered ++ [(Ring.pop pipeSize s.pipe.toRing).1] })
            (k := k) (i := i + 1) (by omega) (by dsimp only; omega)
            (fun j hj => by
              rw [Nat.add_right_comm]
              exact htaken (j + 1) (by omega))
            (by rw [Nat.add_right_comm]; exact hrefused)
          refine ⟨ring, delivered, ?_, ?_, ?_⟩
          · rw [hloop, Nat.add_right_comm]
            rfl
          · rw [hread, hsum, ← BitVec.add_assoc]
            rfl
          · rw [hrest, hcontent]
            rfl

section Reading

variable [DecidableEq ι]

theorem wakeupWriter_same (h : s.wakeupWriter = some s') : SameBytes s s' := by
  rw [wakeupWriter] at h
  cases hq : s.pipe.wwaiter with
  | nil =>
      rw [hq] at h
      obtain rfl := Option.some.inj h
      exact ⟨rfl, rfl, rfl⟩
  | cons p rest =>
      rw [hq] at h
      obtain ⟨phase, -, rfl⟩ := Option.map_eq_some_iff.mp h
      exact ⟨rfl, rfl, rfl⟩

theorem piperead_refused {addr : ℕ → Bool} {r : Option ℤ} (h : s.RefusedAt addr n k)
    (hcall : s.piperead t addr n killed = some (r, s')) :
    r = some (k : ℤ) ∧ s.Takes (k + 1) s' := by
  have hne : s.pipe.nread ≠ s.pipe.nwrite := by
    have hlength := h.lt_length
    rw [Ne, ← Ring.length_eq_zero_iff]
    omega
  have htaken : ∀ j < k, addr (0 + j) = true := fun j hj => (Nat.zero_add j).symm ▸ h.taken j hj
  have hrefused : addr (0 + k) = false := (Nat.zero_add k).symm ▸ h.refused
  obtain ⟨ring, delivered, hloop, hread, hcontent⟩ :=
    pipereadLoop_refused h.lt h.lt_length htaken hrefused
  rw [Nat.zero_add] at hloop
  rw [PipeSystem.piperead, if_neg fun h => hne h.1, hloop] at hcall
  obtain ⟨s₁, hwake, heq⟩ := Option.map_eq_some_iff.mp hcall
  obtain ⟨rfl, rfl⟩ := Prod.mk.inj heq
  have hring := (wakeupWriter_same hwake).ring
  refine ⟨rfl, ?_, ?_⟩
  · rw [← hread]
    exact congrArg Ring.nread hring
  · rw [← hcontent]
    exact congrArg (Ring.contents pipeSize) hring

/-- The byte whose copy failed is lost. -/
theorem RefusedAt.not_takes {addr : ℕ → Bool} {r : Option ℤ} (h : s.RefusedAt addr n k)
    (hcall : s.piperead t addr n killed = some (r, s')) : ¬ s.Takes k s' := by
  intro htakes
  have hlength := congrArg List.length ((piperead_refused h hcall).2.2.symm.trans htakes.2)
  have hlt := h.lt_length
  rw [List.length_drop, List.length_drop, content_length] at hlength
  omega

end Reading

/-! ## Writing -/

/-- The bytes of a user buffer from `i` to `j`. -/
def bytesOf (addr : ℕ → Option Byte) (i j : ℕ) : List Byte :=
  (List.range' i (j - i)).filterMap addr

theorem bytesOf_self (addr : ℕ → Option Byte) (i : ℕ) : bytesOf addr i i = [] := by
  rw [bytesOf, Nat.sub_self]
  rfl

theorem bytesOf_cons {addr : ℕ → Option Byte} {ch : Byte} {j : ℕ} (hch : addr i = some ch)
    (hlt : i < j) : bytesOf addr i j = ch :: bytesOf addr (i + 1) j := by
  rw [bytesOf, show j - i = j - (i + 1) + 1 by omega, List.range'_succ,
    List.filterMap_cons_some hch]
  rfl

theorem bytesOf_append {addr : ℕ → Option Byte} {j m : ℕ} (hij : i ≤ j) (hjm : j ≤ m) :
    bytesOf addr i j ++ bytesOf addr j m = bytesOf addr i m := by
  have hsum : List.range' i (j - i) ++ List.range' j (m - j) = List.range' i (m - i) := by
    have happ := List.range'_append_1 (s := i) (m := j - i) (n := m - j)
    rw [show i + (j - i) = j by omega, show j - i + (m - j) = m - i by omega] at happ
    exact happ
  rw [bytesOf, bytesOf, bytesOf, ← List.filterMap_append, hsum]

/-- The bytes with the numbers from `i` to `j` came in. -/
structure Adds (s : PipeSystem ι) (addr : ℕ → Option Byte) (i j : ℕ) (s' : PipeSystem ι) : Prop where
  le : i ≤ j
  nwrite : s'.pipe.nwrite = s.pipe.nwrite + BitVec.ofNat 32 (j - i)
  content : s'.content = s.content ++ bytesOf addr i j
  size : s'.pipe.length ≤ pipeSize

theorem SameBytes.adds (h : SameBytes s s') (hsize : s.pipe.length ≤ pipeSize)
    (addr : ℕ → Option Byte) (i : ℕ) : s.Adds addr i i s' where
  le := le_refl i
  nwrite := by rw [h.ring, Nat.sub_self, BitVec.add_zero]
  content := by rw [content, h.ring, bytesOf_self, List.append_nil, content]
  size := h.size hsize

theorem put_length (hlt : s.pipe.length < pipeSize) (ch : Byte) :
    (s.put ch).pipe.length = s.pipe.length + 1 := Ring.push_length (by decide) hlt ch

theorem Adds.put {addr : ℕ → Option Byte} {ch : Byte} {j : ℕ}
    (h : (s.put ch).Adds addr (i + 1) j s') (hch : addr i = some ch)
    (hlt : s.pipe.length < pipeSize) : s.Adds addr i j s' := by
  have hle := h.le
  refine ⟨by omega, ?_, ?_, h.size⟩
  · have hsum : BitVec.ofNat 32 (j - i) = 1 + BitVec.ofNat 32 (j - (i + 1)) := by
      rw [show j - i = 1 + (j - (i + 1)) by omega, BitVec.ofNat_add]
      rfl
    rw [h.nwrite, hsum, ← BitVec.add_assoc]
    rfl
  · have hput : (s.put ch).content = s.content ++ [ch] :=
      Ring.push_contents (by decide) (by decide) hlt ch
    rw [h.content, hput, bytesOf_cons hch hle, List.append_assoc]
    rfl

section Writing

variable [DecidableEq ι]

theorem wakeupReader_same (h : s.wakeupReader = some s') : SameBytes s s' := by
  rw [wakeupReader] at h
  cases hq : s.pipe.rwaiter with
  | nil =>
      rw [hq] at h
      obtain rfl := Option.some.inj h
      exact ⟨rfl, rfl, rfl⟩
  | cons p rest =>
      rw [hq] at h
      obtain ⟨phase, -, rfl⟩ := Option.map_eq_some_iff.mp h
      exact ⟨rfl, rfl, rfl⟩

theorem SameBytes.leave (h : SameBytes s s') (t : ι) : SameBytes s (s'.leave t) :=
  ⟨h.ring, h.accepted, h.delivered⟩

theorem SameBytes.sleepWriting (h : SameBytes s s') (t : ι) (addr : ℕ → Option Byte) (n i : ℕ) :
    SameBytes s (s'.sleepWriting t addr n i) :=
  ⟨h.ring, h.accepted, h.delivered⟩

/-- Where a turn of `pipewrite` ends that has come to byte `j`. -/
def EndsAt (t : ι) (addr : ℕ → Option Byte) (n j : ℕ) (r : Option ℤ) (s' : PipeSystem ι) : Prop :=
  (r = none ∧ ∃ asleep, s'.phase t = .writing addr n j asleep) ∨ r = some (-1) ∨
    r = some (j : ℤ) ∧ (j = n ∨ addr j = none)

/-- A turn of `pipewrite` puts in the bytes that it passes, and no other. -/
theorem pipewriteLoop_adds {addr : ℕ → Option Byte} {r : Option ℤ} (hi : i + left = n)
    (hsize : s.pipe.length ≤ pipeSize)
    (hcall : pipewriteLoop t addr n killed left s i = some (r, s')) :
    ∃ j, j ≤ n ∧ (∀ m, i ≤ m → m < j → addr m ≠ none) ∧ s.Adds addr i j s' ∧
      EndsAt t addr n j r s' := by
  induction left generalizing s i with
  | zero =>
      obtain ⟨s₁, hwake, heq⟩ := Option.map_eq_some_iff.mp hcall
      obtain ⟨rfl, rfl⟩ := Prod.mk.inj heq
      exact ⟨i, by omega, fun m hlo hhi => absurd hlo (by omega),
        ((wakeupReader_same hwake).leave t).adds hsize addr i,
        Or.inr (Or.inr ⟨rfl, Or.inl (by omega)⟩)⟩
  | succ left ih =>
      have hnone : ∀ m, i ≤ m → m < i → addr m ≠ none := fun m hlo hhi => absurd hlo (by omega)
      rw [pipewriteLoop] at hcall
      split_ifs at hcall with hfull hstop
      · obtain ⟨rfl, rfl⟩ := Prod.mk.inj (Option.some.inj hcall)
        have hsame : SameBytes s s := ⟨rfl, rfl, rfl⟩
        exact ⟨i, by omega, hnone, (hsame.leave t).adds hsize addr i,
          Or.inr (Or.inl rfl)⟩
      · obtain ⟨s₁, hwake, heq⟩ := Option.map_eq_some_iff.mp hcall
        obtain ⟨rfl, rfl⟩ := Prod.mk.inj heq
        exact ⟨i, by omega, hnone,
          ((wakeupReader_same hwake).sleepWriting t addr n i).adds hsize addr i,
          Or.inl ⟨rfl, true, Function.update_self t _ s₁.phase⟩⟩
      · have hlt : s.pipe.length < pipeSize :=
          lt_of_le_of_ne hsize fun heq => hfull ((Ring.length_eq_cap_iff (by decide)).mpr heq)
        cases hch : addr i with
        | none =>
            rw [hch] at hcall
            obtain ⟨s₁, hwake, heq⟩ := Option.map_eq_some_iff.mp hcall
            obtain ⟨rfl, rfl⟩ := Prod.mk.inj heq
            exact ⟨i, by omega, hnone, ((wakeupReader_same hwake).leave t).adds hsize addr i,
              Or.inr (Or.inr ⟨rfl, Or.inr hch⟩)⟩
        | some ch =>
            rw [hch] at hcall
            have hput := put_length hlt ch
            obtain ⟨j, hj, hbefore, hadds, hends⟩ := ih (by omega) (by omega) hcall
            refine ⟨j, hj, fun m hlo hhi => ?_, hadds.put hch hlt, hends⟩
            rcases Nat.eq_or_lt_of_le hlo with rfl | hlt
            · rw [hch]
              exact Option.some_ne_none ch
            · exact hbefore m hlt hhi

/-- What the turns of other tasks may do to a `pipewrite` on its way. -/
def Keeps (s : PipeSystem ι) (t : ι) (s' : PipeSystem ι) : Prop :=
  (s.pipe.length ≤ pipeSize → s'.pipe.length ≤ pipeSize) ∧
    ∀ addr n i asleep, s.phase t = .writing addr n i asleep →
      ∃ asleep, s'.phase t = .writing addr n i asleep

omit [DecidableEq ι] in
theorem Keeps.trans {s₁ s₂ : PipeSystem ι} (h : s.Keeps t s₁) (k : s₁.Keeps t s₂) :
    s.Keeps t s₂ := by
  refine ⟨fun hsize => k.1 (h.1 hsize), fun addr n i asleep hphase => ?_⟩
  obtain ⟨asleep, hphase⟩ := h.2 addr n i asleep hphase
  exact k.2 addr n i asleep hphase

omit [DecidableEq ι] in
theorem keeps_of_ring (h : s'.pipe.toRing = s.pipe.toRing) (hphase : s'.phase t = s.phase t) :
    s.Keeps t s' := by
  refine ⟨fun hsize => ?_, fun addr n i asleep hp => ⟨asleep, hphase.trans hp⟩⟩
  rw [h]
  exact hsize

/-- The phase of a task that is woken. -/
theorem keeps_of_wake {p : ι} {phase : PipePhase} (h : s'.pipe.toRing = s.pipe.toRing)
    (hwake : (s.phase p).wake = some phase) (hphase : s'.phase = Function.update s.phase p phase) :
    s.Keeps t s' := by
  by_cases htp : t = p
  · subst htp
    refine ⟨fun hsize => h ▸ hsize, fun addr n i asleep hp => ?_⟩
    rw [hphase, Function.update_self]
    rw [hp] at hwake
    cases asleep with
    | true => exact ⟨false, (Option.some.inj hwake).symm⟩
    | false => cases hwake
  · exact keeps_of_ring h (by rw [hphase, Function.update_of_ne htp])

theorem wakeupReader_keeps (h : s.wakeupReader = some s') : s.Keeps t s' := by
  rw [wakeupReader] at h
  cases hq : s.pipe.rwaiter with
  | nil =>
      rw [hq] at h
      obtain rfl := Option.some.inj h
      exact keeps_of_ring rfl rfl
  | cons p rest =>
      rw [hq] at h
      obtain ⟨phase, hwake, rfl⟩ := Option.map_eq_some_iff.mp h
      exact keeps_of_wake rfl hwake rfl

theorem wakeupWriter_keeps (h : s.wakeupWriter = some s') : s.Keeps t s' := by
  rw [wakeupWriter] at h
  cases hq : s.pipe.wwaiter with
  | nil =>
      rw [hq] at h
      obtain rfl := Option.some.inj h
      exact keeps_of_ring rfl rfl
  | cons p rest =>
      rw [hq] at h
      obtain ⟨phase, hwake, rfl⟩ := Option.map_eq_some_iff.mp h
      exact keeps_of_wake rfl hwake rfl

theorem leave_keeps (hne : t ≠ u) : s.Keeps t (s.leave u) :=
  keeps_of_ring rfl (Function.update_of_ne hne _ _)

theorem pipewriteLoop_keeps {addr : ℕ → Option Byte} {r : Option ℤ} (hne : t ≠ u)
    (hcall : pipewriteLoop u addr n killed left s i = some (r, s')) : s.Keeps t s' := by
  induction left generalizing s i with
  | zero =>
      obtain ⟨s₁, hwake, heq⟩ := Option.map_eq_some_iff.mp hcall
      obtain ⟨rfl, rfl⟩ := Prod.mk.inj heq
      exact (wakeupReader_keeps hwake).trans (leave_keeps hne)
  | succ left ih =>
      rw [pipewriteLoop] at hcall
      split_ifs at hcall with hfull hstop
      · obtain ⟨rfl, rfl⟩ := Prod.mk.inj (Option.some.inj hcall)
        exact leave_keeps hne
      · obtain ⟨s₁, hwake, heq⟩ := Option.map_eq_some_iff.mp hcall
        obtain ⟨rfl, rfl⟩ := Prod.mk.inj heq
        exact (wakeupReader_keeps hwake).trans
          (keeps_of_ring rfl (Function.update_of_ne hne _ s₁.phase))
      · cases hch : addr i with
        | none =>
            rw [hch] at hcall
            obtain ⟨s₁, hwake, heq⟩ := Option.map_eq_some_iff.mp hcall
            obtain ⟨rfl, rfl⟩ := Prod.mk.inj heq
            exact (wakeupReader_keeps hwake).trans (leave_keeps hne)
        | some ch =>
            rw [hch] at hcall
            dsimp only at hcall
            have hput : s.Keeps t (s.put ch) := by
              refine ⟨fun hsize => ?_, fun addr n i asleep hp => ⟨asleep, hp⟩⟩
              have hlt : s.pipe.length < pipeSize :=
                lt_of_le_of_ne hsize fun heq => hfull ((Ring.length_eq_cap_iff (by decide)).mpr heq)
              rw [put_length hlt]
              exact hlt
            exact hput.trans (ih hcall)

omit [DecidableEq ι] in
theorem pipereadLoop_keeps (addr : ℕ → Bool) : s.Keeps t (pipereadLoop addr left s i).2 := by
  induction left generalizing s i with
  | zero => exact keeps_of_ring rfl rfl
  | succ left ih =>
      rw [pipereadLoop]
      by_cases hempty : s.pipe.nread = s.pipe.nwrite
      · rw [if_pos hempty]
        exact keeps_of_ring rfl rfl
      · rw [if_neg hempty]
        have hpos : 0 < s.pipe.length := by
          rw [Nat.pos_iff_ne_zero, Ne, Ring.length_eq_zero_iff]
          exact hempty
        have hpop := Ring.pop_length pipeSize hpos
        dsimp only
        have hkeeps : ∀ delivered, s.Keeps t { s with
            pipe := { s.pipe with toRing := (Ring.pop pipeSize s.pipe.toRing).2 }
            delivered := delivered } := by
          refine fun delivered => ⟨fun hsize => ?_, fun addr n i asleep hp => ⟨asleep, hp⟩⟩
          dsimp only
          omega
        split_ifs
        · exact (hkeeps _).trans ih
        · exact hkeeps s.delivered

theorem piperead_keeps {addr : ℕ → Bool} {r : Option ℤ} (hne : t ≠ u)
    (hcall : s.piperead u addr n killed = some (r, s')) : s.Keeps t s' := by
  rw [PipeSystem.piperead] at hcall
  split_ifs at hcall
  · obtain ⟨rfl, rfl⟩ := Prod.mk.inj (Option.some.inj hcall)
    exact leave_keeps hne
  · obtain ⟨rfl, rfl⟩ := Prod.mk.inj (Option.some.inj hcall)
    exact keeps_of_ring rfl (Function.update_of_ne hne _ _)
  · obtain ⟨s₁, hwake, heq⟩ := Option.map_eq_some_iff.mp hcall
    obtain ⟨rfl, rfl⟩ := Prod.mk.inj heq
    exact ((pipereadLoop_keeps addr).trans (wakeupWriter_keeps hwake)).trans (leave_keeps hne)

/-- A turn that is not the task's own. -/
theorem PipeStep.keeps {op : PipeOp ι} {r : Option ℤ} (hother : op.task ≠ some t)
    (hstep : PipeStep s (op, r) s') : s.Keeps t s' := by
  obtain ⟨hp, hcall⟩ := hstep
  cases op with
  | write u addr n killed =>
      exact pipewriteLoop_keeps (fun heq => hother (congrArg some heq.symm)) hcall
  | read u addr n killed =>
      exact piperead_keeps (fun heq => hother (congrArg some heq.symm)) hcall
  | resume u killed =>
      have hne : t ≠ u := fun heq => hother (congrArg some heq.symm)
      simp only [pipeStep] at hcall
      rcases hp with ⟨addr, n, i, hphase⟩ | ⟨addr, n, hphase⟩
      · rw [hphase] at hcall
        exact pipewriteLoop_keeps hne hcall
      · rw [hphase] at hcall
        exact piperead_keeps hne hcall
  | close writable =>
      obtain ⟨s₁, hclose, heq⟩ := Option.map_eq_some_iff.mp hcall
      obtain ⟨rfl, rfl⟩ := Prod.mk.inj heq
      have hflag : ∀ r w, s.Keeps t { s with pipe := { s.pipe with readopen := r, writeopen := w } } :=
        fun r w => keeps_of_ring rfl rfl
      cases writable with
      | true =>
          have hwake : wakeupReader { s with pipe := { s.pipe with writeopen := false } } =
              some s₁ := hclose
          exact (hflag _ _).trans (wakeupReader_keeps hwake)
      | false =>
          have hwake : wakeupWriter { s with pipe := { s.pipe with readopen := false } } =
              some s₁ := hclose
          exact (hflag _ _).trans (wakeupWriter_keeps hwake)

/-- A `pipewrite` of the task `t` and what the others do meanwhile, from a pipe with at most
`PIPESIZE` bytes: the sum of what `nwrite` went on by and the bytes that came in, in the turns of
this call, then what it returned if it did. -/
inductive WriteCall (t : ι) (addr : ℕ → Option Byte) (n : ℤ) :
    BitVec 32 → List Byte → Option ℤ → PipeSystem ι → Prop
  | call {s s' : PipeSystem ι} {killed : Bool} {r : Option ℤ} {new : List Byte} :
      s.pipe.length ≤ pipeSize → PipeStep s (.write t addr n killed, r) s' →
      s'.content = s.content ++ new →
      WriteCall t addr n (s'.pipe.nwrite - s.pipe.nwrite) new r s'
  | other {s s' : PipeSystem ι} {op : PipeOp ι} {r : Option ℤ} {sum : BitVec 32}
      {bytes : List Byte} :
      WriteCall t addr n sum bytes none s → op.task ≠ some t → PipeStep s (op, r) s' →
      WriteCall t addr n sum bytes none s'
  | resume {s s' : PipeSystem ι} {killed : Bool} {r : Option ℤ} {sum : BitVec 32}
      {bytes new : List Byte} :
      WriteCall t addr n sum bytes none s → PipeStep s (.resume t killed, r) s' →
      s'.content = s.content ++ new →
      WriteCall t addr n (sum + (s'.pipe.nwrite - s.pipe.nwrite)) (bytes ++ new) r s'

theorem WriteCall.adds {addr : ℕ → Option Byte} {z : ℤ} {sum : BitVec 32} {bytes : List Byte}
    {r : Option ℤ} (h : WriteCall t addr z sum bytes r s) :
    s.pipe.length ≤ pipeSize ∧ ∃ j, j ≤ z.toNat ∧ (∀ m < j, addr m ≠ none) ∧
      sum = BitVec.ofNat 32 j ∧ bytes = bytesOf addr 0 j ∧ EndsAt t addr z.toNat j r s := by
  induction h with
  | @call s s' killed r new hsize hstep hnew =>
      obtain ⟨j, hj, hbefore, hadds, hends⟩ :=
        pipewriteLoop_adds (Nat.zero_add z.toNat) hsize hstep.2
      refine ⟨hadds.size, j, hj, fun m hm => hbefore m (Nat.zero_le m) hm, ?_, ?_, hends⟩
      · rw [hadds.nwrite, BitVec.add_comm, BitVec.add_sub_cancel, Nat.sub_zero]
      · exact List.append_cancel_left (hnew.symm.trans hadds.content)
  | @other s s' op r sum bytes hcall hother hstep ih =>
      obtain ⟨hsize, j, hj, hbefore, hsum, hbytes, hends⟩ := ih
      have hkeeps := hstep.keeps hother
      refine ⟨hkeeps.1 hsize, j, hj, hbefore, hsum, hbytes, Or.inl ⟨rfl, ?_⟩⟩
      rcases hends with ⟨-, asleep, hphase⟩ | hends | ⟨hends, -⟩
      · exact hkeeps.2 addr z.toNat j asleep hphase
      · cases hends
      · cases hends
  | @resume s s' killed r sum bytes new hcall hstep hnew ih =>
      obtain ⟨hsize, i, hi, hbefore, hsum, hbytes, hends⟩ := ih
      obtain ⟨asleep, hphase⟩ : ∃ asleep, s.phase t = .writing addr z.toNat i asleep := by
        rcases hends with ⟨-, hphase⟩ | hends | ⟨hends, -⟩
        · exact hphase
        · cases hends
        · cases hends
      have hturn : pipewriteLoop t addr z.toNat killed (z.toNat - i) s i = some (r, s') := by
        have hstep := hstep.2
        simp only [pipeStep, hphase] at hstep
        exact hstep
      obtain ⟨j, hj, hpassed, hadds, hends⟩ := pipewriteLoop_adds (by omega) hsize hturn
      have hij := hadds.le
      refine ⟨hadds.size, j, hj, fun m hm => ?_, ?_, ?_, hends⟩
      · by_cases hmi : m < i
        · exact hbefore m hmi
        · exact hpassed m (not_lt.mp hmi) hm
      · rw [hadds.nwrite, BitVec.add_comm, BitVec.add_comm s.pipe.nwrite, BitVec.add_sub_cancel,
          hsum, BitVec.add_comm, ← BitVec.ofNat_add]
        congr 1
        omega
      · rw [hbytes, List.append_cancel_left (hnew.symm.trans hadds.content),
          bytesOf_append (Nat.zero_le i) hij]

/-- Where `copyout2` fails at byte `k`, `piperead` returns `k` and has taken `k + 1` bytes. Where
`copyin2` fails at byte `k`, the whole of `pipewrite` has put in `k` bytes if it comes that far. -/
theorem copy_fails (s : PipeSystem ι) (t : ι) :
    (∀ addr n k killed r s', s.RefusedAt addr n k → s.piperead t addr n killed = some (r, s') →
      r = some (k : ℤ) ∧ s.Takes (k + 1) s' ∧ ¬ s.Takes k s') ∧
    ∀ addr n (k : ℕ) sum bytes r, (∀ m < k, addr m ≠ none) → k < n.toNat ∧ addr k = none →
      WriteCall t addr n sum bytes (some r) s →
        r = -1 ∨ r = k ∧ sum = BitVec.ofNat 32 k ∧ bytes = bytesOf addr 0 k := by
  refine ⟨fun addr n k killed r s' h hcall => ?_, fun addr n k sum bytes r hbefore hk hcall => ?_⟩
  · obtain ⟨hr, htakes⟩ := piperead_refused h hcall
    exact ⟨hr, htakes, h.not_takes hcall⟩
  · obtain ⟨-, j, hj, hpassed, hsum, hbytes, hends⟩ := hcall.adds
    rcases hends with ⟨hnone, -⟩ | hminus | ⟨hr, hlast⟩
    · cases hnone
    · exact Or.inl (Option.some.inj hminus)
    · obtain rfl : j = k := by
        have hle : j ≤ k := not_lt.mp fun hlt => hpassed k hlt hk.2
        rcases hlast with rfl | hnone
        · exact absurd hk.1 (not_lt.mpr hle)
        · exact le_antisymm hle (not_lt.mp fun hlt => hbefore j hlt hnone)
      exact Or.inr ⟨Option.some.inj hr, hsum, hbytes⟩

end Writing

/-- A pipe of two bytes, and two tasks. -/
def twoBytes : PipeSystem Bool := ((pipealloc fun _ => 0).put 7).put 8

theorem twoBytes_refused : twoBytes.RefusedAt (fun j => j = 0) 2 1 where
  lt := by decide
  lt_length := by decide
  taken := by decide
  refused := by decide

/-- The second byte of two fails, for a reader and for a writer. -/
theorem copy_fails_second :
    (∃ s', twoBytes.piperead true (fun j => j = 0) 2 false = some (some 1, s') ∧
      twoBytes.Takes 2 s') ∧
    ∃ s', PipeStep twoBytes (.write false (fun j => if j = 0 then some 9 else none) 2 false,
      some 1) s' ∧ s'.pipe.nwrite - twoBytes.pipe.nwrite = 1 := by
  obtain ⟨s', hread⟩ : ∃ s', twoBytes.piperead true (fun j => j = 0) 2 false = some (some 1, s') :=
    ⟨_, rfl⟩
  refine ⟨⟨s', hread, ((copy_fails twoBytes true).1 _ _ _ _ _ _ twoBytes_refused hread).2.1⟩, ?_⟩
  have hstep : ∃ s', PipeStep twoBytes
      (.write false (fun j => if j = 0 then some 9 else none) 2 false, some 1) s' ∧
      s'.content = twoBytes.content ++ [9] := ⟨_, ⟨⟨rfl, rfl⟩, rfl⟩, by decide⟩
  obtain ⟨s', hstep, hnew⟩ := hstep
  refine ⟨s', hstep, ?_⟩
  have hcall := WriteCall.call (by decide) hstep hnew
  have hbefore : ∀ m < 1, (if m = 0 then some (9 : Byte) else none) ≠ none := by decide
  have hends := (copy_fails s' false).2 _ _ 1 _ _ _ hbefore ⟨by decide, rfl⟩ hcall
  exact (hends.resolve_left (by decide)).2.1

/-- The byte 8 is taken out and not delivered. -/
theorem copy_loses_byte : ∃ s', twoBytes.piperead true (fun j => j = 0) 2 false =
    some (some 1, s') ∧ twoBytes.RefusedAt (fun j => j = 0) 2 1 ∧ ¬ twoBytes.Takes 1 s' :=
  ⟨_, rfl, twoBytes_refused, fun h => absurd h.1 (by decide)⟩

end PipeSystem

end K210Os
