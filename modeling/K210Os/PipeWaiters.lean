import K210Os.PipeCopies

/-!
# Who waits at a pipe

`wakeup_fromwq` wakes one task. A turn that leaves nobody runnable inside has to leave the pipe
as those asleep expect it, and a pipe that is neither full nor empty has nobody asleep.
-/

namespace K210Os

open RingBuffer Transition

/-- Inside and runnable. -/
def PipePhase.awake : PipePhase → Bool
  | .out => false
  | .writing _ _ _ asleep => !asleep
  | .reading _ _ asleep => !asleep

theorem PipePhase.wake_some {phase phase' : PipePhase} (h : phase.wake = some phase') :
    phase.asleep = true ∧ phase.awake = false ∧ phase'.awake = true := by
  cases phase with
  | out => cases h
  | writing addr n i asleep =>
      cases asleep with
      | false => cases h
      | true => exact ⟨rfl, rfl, Option.some.inj h ▸ rfl⟩
  | reading addr n asleep =>
      cases asleep with
      | false => cases h
      | true => exact ⟨rfl, rfl, Option.some.inj h ▸ rfl⟩

namespace PipeSystem

variable {ι : Type*} {s s' : PipeSystem ι} {t u : ι} {n k i left : ℕ} {killed : Bool}

/-- No task is runnable inside. -/
def Idle (s : PipeSystem ι) : Prop := ∀ t, (s.phase t).awake = false

/-- What those asleep wait for has not come. -/
structure WaitersRight (s : PipeSystem ι) : Prop where
  readers : s.Idle → s.pipe.rwaiter ≠ [] → s.pipe.length = 0 ∧ s.pipe.writeopen = true
  writers : s.Idle → s.pipe.wwaiter ≠ [] → s.pipe.length = pipeSize ∧ s.pipe.readopen = true

/-- Another task than `t` is runnable inside. -/
def OtherAwake (s : PipeSystem ι) (t : ι) : Prop := ∃ u, u ≠ t ∧ (s.phase u).awake = true

/-- How many bytes `copyin2` delivers from byte `i` on, of at most `left`. -/
def copies (addr : ℕ → Option Byte) : ℕ → ℕ → ℕ
  | 0, _ => 0
  | left + 1, i => if (addr i).isSome then copies addr left (i + 1) + 1 else 0

theorem copies_le (addr : ℕ → Option Byte) : copies addr left i ≤ left := by
  induction left generalizing i with
  | zero => exact le_refl 0
  | succ left ih =>
      rw [copies]
      split
      · exact Nat.succ_le_succ ih
      · exact Nat.zero_le _

/-- The pipe fills up before the bytes are all in. -/
def Fills (s : PipeSystem ι) (addr : ℕ → Option Byte) (left i : ℕ) : Prop :=
  pipeSize ≤ s.pipe.length + copies addr left i ∧ pipeSize < s.pipe.length + left

/-- A writer that fills the pipe and goes wakes nobody. One that puts in all its bytes wakes a
reader, and if there is none then those asleep are writers: the pipe has to be full for them. -/
def WriteQuiet (s : PipeSystem ι) (t : ι) (addr : ℕ → Option Byte) (killed : Bool)
    (left i : ℕ) : Prop :=
  s.OtherAwake t ∨
    (s.Fills addr left i ∧ (s.pipe.readopen = true ∧ killed = false ∨
      s.pipe.rwaiter = [] ∧ (s.pipe.wwaiter = [] ∨ s.pipe.readopen = true))) ∨
    (¬ s.Fills addr left i ∧ (s.pipe.rwaiter ≠ [] ∨ s.pipe.wwaiter = [] ∨
      s.pipe.length + copies addr left i = pipeSize ∧ s.pipe.readopen = true))

/-- A reader that finds no byte wakes nobody. One that takes bytes wakes a writer, and if there is
none then those asleep are readers: it has to take all the bytes, from a pipe open for writing. -/
def ReadQuiet (s : PipeSystem ι) (t : ι) (addr : ℕ → Bool) (n : ℕ) : Prop :=
  s.OtherAwake t ∨
    (s.pipe.length = 0 ∧ s.pipe.writeopen = true ∧ s.pipe.wwaiter = []) ∨
    (¬ (s.pipe.length = 0 ∧ s.pipe.writeopen = true) ∧ (s.pipe.wwaiter ≠ [] ∨ s.pipe.rwaiter = [] ∨
      s.pipe.writeopen = true ∧ s.pipe.length ≤ n ∧ ∀ k, k + 1 < s.pipe.length → addr k = true))

/-- The condition on a turn, in the state before it. -/
def Quiet (s : PipeSystem ι) : PipeOp ι → Prop
  | .write t addr n killed => s.WriteQuiet t addr killed n.toNat 0
  | .read t addr n _ => s.ReadQuiet t addr n.toNat
  | .resume t killed =>
      match s.phase t with
      | .writing addr n i _ => s.WriteQuiet t addr killed (n - i) i
      | .reading addr n _ => s.ReadQuiet t addr n
      | .out => True
  | .close _ => True

/-! ## Who is runnable afterwards -/

section Waking

variable [DecidableEq ι]

/-- What a wake-up of the first in `queue` does to the tasks. -/
def Wakes (queue : List ι) (phase phase' : ι → PipePhase) : Prop :=
  (queue = [] ∧ phase' = phase) ∨
    ∃ p woken, queue ≠ [] ∧ (phase p).wake = some woken ∧ phase' = Function.update phase p woken

theorem Wakes.exists_awake {queue : List ι} {phase phase' : ι → PipePhase}
    (h : Wakes queue phase phase') {among : ι → Prop}
    (hamong : ∀ u, (phase u).asleep = true → among u) :
    (∃ u, among u ∧ (phase' u).awake = true) ↔
      queue ≠ [] ∨ ∃ u, among u ∧ (phase u).awake = true := by
  rcases h with ⟨rfl, rfl⟩ | ⟨p, woken, hne, hwake, rfl⟩
  · simp only [ne_eq, not_true_eq_false, false_or]
  · obtain ⟨hasleep, -, hawake⟩ := PipePhase.wake_some hwake
    have hp : among p ∧ (Function.update phase p woken p).awake = true :=
      ⟨hamong p hasleep, by rw [Function.update_self]; exact hawake⟩
    exact iff_of_true ⟨p, hp⟩ (Or.inl hne)

/-- The task `t` has had its turn and is not runnable any more. -/
theorem idle_iff {queue : List ι} {phase : ι → PipePhase} {last : PipePhase}
    (h : Wakes queue s.phase phase) (ht : (s.phase t).asleep = false) (hlast : last.awake = false)
    (hphase : s'.phase = Function.update phase t last) :
    s'.Idle ↔ ¬ s.OtherAwake t ∧ queue = [] := by
  have hothers : (∃ u, u ≠ t ∧ (phase u).awake = true) ↔ _ := h.exists_awake fun u hu heq => by
    rw [heq, ht] at hu
    cases hu
  have hidle : s'.Idle ↔ ¬ ∃ u, u ≠ t ∧ (phase u).awake = true := by
    constructor
    · rintro hidle ⟨u, hne, hu⟩
      have hfalse := hidle u
      rw [hphase, Function.update_of_ne hne, hu] at hfalse
      cases hfalse
    · intro hnone u
      rw [hphase]
      by_cases hut : u = t
      · rw [hut, Function.update_self]
        exact hlast
      · rw [Function.update_of_ne hut, ← Bool.not_eq_true]
        exact fun hu => hnone ⟨u, hut, hu⟩
  rw [hidle, hothers, not_or, not_not, and_comm, OtherAwake]

/-- Nobody has had a turn. -/
theorem idle_iff_of_wakes {queue : List ι} (h : Wakes queue s.phase s'.phase) :
    s'.Idle ↔ s.Idle ∧ queue = [] := by
  have hamong : ∀ u, (s.phase u).asleep = true → (fun _ : ι => True) u := fun _ _ => trivial
  have hany := h.exists_awake hamong
  simp only [true_and] at hany
  simp only [Idle, ← Bool.not_eq_true, ← not_exists]
  rw [hany, not_or, not_not, and_comm]

theorem wakeupReader_wakes (h : s.wakeupReader = some s') :
    Wakes s.pipe.rwaiter s.phase s'.phase ∧
      s'.pipe = { s.pipe with rwaiter := s.pipe.rwaiter.tail } := by
  rw [wakeupReader] at h
  cases hq : s.pipe.rwaiter with
  | nil =>
      rw [hq] at h
      obtain rfl := Option.some.inj h
      exact ⟨Or.inl ⟨rfl, rfl⟩, by rw [List.tail_nil, ← hq]⟩
  | cons p rest =>
      rw [hq] at h
      obtain ⟨woken, hwake, rfl⟩ := Option.map_eq_some_iff.mp h
      exact ⟨Or.inr ⟨p, woken, List.cons_ne_nil p rest, hwake, rfl⟩, rfl⟩

theorem wakeupWriter_wakes (h : s.wakeupWriter = some s') :
    Wakes s.pipe.wwaiter s.phase s'.phase ∧
      s'.pipe = { s.pipe with wwaiter := s.pipe.wwaiter.tail } := by
  rw [wakeupWriter] at h
  cases hq : s.pipe.wwaiter with
  | nil =>
      rw [hq] at h
      obtain rfl := Option.some.inj h
      exact ⟨Or.inl ⟨rfl, rfl⟩, by rw [List.tail_nil, ← hq]⟩
  | cons p rest =>
      rw [hq] at h
      obtain ⟨woken, hwake, rfl⟩ := Option.map_eq_some_iff.mp h
      exact ⟨Or.inr ⟨p, woken, List.cons_ne_nil p rest, hwake, rfl⟩, rfl⟩

/-! ## The turns -/

/-- A turn of `pipewrite`, from a pipe of at most `PIPESIZE` bytes: it fills the pipe and gives
up, fills it and sleeps, or comes to its end. -/
theorem pipewriteLoop_cases {addr : ℕ → Option Byte} {r : Option ℤ}
    (hsize : s.pipe.length ≤ pipeSize)
    (hcall : pipewriteLoop t addr n killed left s i = some (r, s')) :
    ∃ ring accepted, ∃ s₀ : PipeSystem ι,
      s₀ = { s with pipe := { s.pipe with toRing := ring }, accepted := accepted } ∧
      ((s.Fills addr left i ∧ ring.length = pipeSize ∧
          (s.pipe.readopen = false ∨ killed = true) ∧ s' = s₀.leave t) ∨
        (s.Fills addr left i ∧ ring.length = pipeSize ∧
          (s.pipe.readopen = true ∧ killed = false) ∧
          ∃ s₁ j, s₀.wakeupReader = some s₁ ∧ s' = s₁.sleepWriting t addr n j) ∨
        (¬ s.Fills addr left i ∧ ring.length = s.pipe.length + copies addr left i ∧
          ∃ s₁, s₀.wakeupReader = some s₁ ∧ s' = s₁.leave t)) := by
  induction left generalizing s i with
  | zero =>
      obtain ⟨s₁, hwake, heq⟩ := Option.map_eq_some_iff.mp hcall
      obtain ⟨-, rfl⟩ := Prod.mk.inj heq
      have hfills : ¬ s.Fills addr 0 i := fun h => absurd h.2 (not_lt.mpr hsize)
      exact ⟨s.pipe.toRing, s.accepted, s, rfl, Or.inr (Or.inr ⟨hfills, rfl, s₁, hwake, rfl⟩)⟩
  | succ left ih =>
      rw [pipewriteLoop] at hcall
      by_cases hfull : s.pipe.nwrite = s.pipe.nread + BitVec.ofNat 32 pipeSize
      · have hlength : s.pipe.length = pipeSize := (Ring.length_eq_cap_iff (by decide)).mp hfull
        have hfills : s.Fills addr (left + 1) i := ⟨by omega, by omega⟩
        rw [if_pos hfull] at hcall
        refine ⟨s.pipe.toRing, s.accepted, s, rfl, ?_⟩
        split_ifs at hcall with hstop
        · obtain ⟨-, rfl⟩ := Prod.mk.inj (Option.some.inj hcall)
          simp only [Bool.or_eq_true, Bool.not_eq_true'] at hstop
          exact Or.inl ⟨hfills, hlength, hstop, rfl⟩
        · obtain ⟨s₁, hwake, heq⟩ := Option.map_eq_some_iff.mp hcall
          obtain ⟨-, rfl⟩ := Prod.mk.inj heq
          simp only [Bool.or_eq_true, Bool.not_eq_true', not_or, Bool.not_eq_false,
            Bool.not_eq_true] at hstop
          exact Or.inr (Or.inl ⟨hfills, hlength, hstop, s₁, i, hwake, rfl⟩)
      · have hlt : s.pipe.length < pipeSize :=
          lt_of_le_of_ne hsize fun heq => hfull ((Ring.length_eq_cap_iff (by decide)).mpr heq)
        rw [if_neg hfull] at hcall
        cases hch : addr i with
        | none =>
            rw [hch] at hcall
            obtain ⟨s₁, hwake, heq⟩ := Option.map_eq_some_iff.mp hcall
            obtain ⟨-, rfl⟩ := Prod.mk.inj heq
            have hcopies : copies addr (left + 1) i = 0 := by
              rw [copies, hch]
              rfl
            refine ⟨s.pipe.toRing, s.accepted, s, rfl, Or.inr (Or.inr ⟨?_, ?_, s₁, hwake, rfl⟩)⟩
            · intro hfills
              have hle := hfills.1
              omega
            · rw [hcopies]
              rfl
        | some ch =>
            rw [hch] at hcall
            have hput := put_length hlt ch
            have hcopies : copies addr (left + 1) i = copies addr left (i + 1) + 1 := by
              rw [copies, hch]
              rfl
            have hfills : (s.put ch).Fills addr left (i + 1) ↔ s.Fills addr (left + 1) i := by
              rw [Fills, Fills, hput, hcopies]
              constructor <;> rintro ⟨hall, hleft⟩ <;> exact ⟨by omega, by omega⟩
            obtain ⟨ring, accepted, s₀, rfl, hends⟩ := ih (by omega) hcall
            rw [hfills, show (s.put ch).pipe.length + copies addr left (i + 1) =
              s.pipe.length + copies addr (left + 1) i by omega] at hends
            exact ⟨ring, accepted, _, rfl, hends⟩

end Waking

/-- The loop empties the pipe if it may take all the bytes and no copy but the last fails. -/
theorem pipereadLoop_empties (s : PipeSystem ι) (left i : ℕ) (addr : ℕ → Bool) :
    ∃ ring delivered, (pipereadLoop addr left s i).2 =
        { s with pipe := { s.pipe with toRing := ring }, delivered := delivered } ∧
      ring.length ≤ s.pipe.length ∧ (ring.length = 0 ↔
        s.pipe.length ≤ left ∧ ∀ k, k + 1 < s.pipe.length → addr (i + k) = true) := by
  induction left generalizing s i with
  | zero =>
      refine ⟨s.pipe.toRing, s.delivered, rfl, le_refl _, fun h => ⟨h.le, fun k hk => ?_⟩,
        fun h => Nat.le_zero.mp h.1⟩
      exact absurd hk (by rw [h]; exact Nat.not_lt_zero _)
  | succ left ih =>
      rw [pipereadLoop]
      by_cases hempty : s.pipe.nread = s.pipe.nwrite
      · have hlength : s.pipe.length = 0 := Ring.length_eq_zero_iff.mpr hempty
        rw [if_pos hempty]
        refine ⟨s.pipe.toRing, s.delivered, rfl, le_refl _,
          fun _ => ⟨by omega, fun k hk => absurd hk (by omega)⟩, fun _ => hlength⟩
      · have hpos : 0 < s.pipe.length := by
          rw [Nat.pos_iff_ne_zero, Ne, Ring.length_eq_zero_iff]
          exact hempty
        have hpop := Ring.pop_length pipeSize hpos
        rw [if_neg hempty]
        dsimp only
        cases haddr : addr i with
        | true =>
            obtain ⟨ring, delivered, hloop, hle, hzero⟩ := ih { s with
              pipe := { s.pipe with toRing := (Ring.pop pipeSize s.pipe.toRing).2 }
              delivered := s.delivered ++ [(Ring.pop pipeSize s.pipe.toRing).1] } (i + 1)
            dsimp only at hloop hle hzero
            refine ⟨ring, delivered, hloop, by omega, hzero.trans ?_⟩
            constructor
            · rintro ⟨hleft, hall⟩
              refine ⟨by omega, fun k hk => ?_⟩
              cases k with
              | zero => exact haddr
              | succ k =>
                  rw [← Nat.add_assoc, Nat.add_right_comm]
                  exact hall k (by omega)
            · rintro ⟨hleft, hall⟩
              refine ⟨by omega, fun k hk => ?_⟩
              rw [Nat.add_right_comm]
              exact hall (k + 1) (by omega)
        | false =>
            refine ⟨(Ring.pop pipeSize s.pipe.toRing).2, s.delivered, rfl, by omega, ?_⟩
            constructor
            · exact fun h => ⟨by omega, fun k hk => absurd hk (by omega)⟩
            · rintro ⟨-, hall⟩
              by_contra hne
              have hfirst := hall 0 (by omega)
              rw [Nat.add_zero, haddr] at hfirst
              cases hfirst

theorem waitersRight_iff {p : Prop} (hidle : s.Idle ↔ p) :
    s.WaitersRight ↔ (p → (s.pipe.rwaiter = [] ∨ s.pipe.length = 0 ∧ s.pipe.writeopen = true) ∧
      (s.pipe.wwaiter = [] ∨ s.pipe.length = pipeSize ∧ s.pipe.readopen = true)) := by
  rw [← hidle]
  constructor
  · intro h hs
    exact ⟨or_iff_not_imp_left.mpr (h.readers hs), or_iff_not_imp_left.mpr (h.writers hs)⟩
  · intro h
    exact ⟨fun hs => or_iff_not_imp_left.mp (h hs).1, fun hs => or_iff_not_imp_left.mp (h hs).2⟩

section Turns

variable [DecidableEq ι]

theorem pipewriteLoop_waiters {addr : ℕ → Option Byte} {r : Option ℤ}
    (hsize : s.pipe.length ≤ pipeSize) (ht : (s.phase t).asleep = false)
    (hcall : pipewriteLoop t addr n killed left s i = some (r, s')) :
    s'.pipe.length ≤ pipeSize ∧ (s'.WaitersRight ↔ s.WriteQuiet t addr killed left i) := by
  obtain ⟨ring, accepted, s₀, hs₀, hends⟩ := pipewriteLoop_cases hsize hcall
  have hphase : s₀.phase = s.phase := by rw [hs₀]
  have hpipe : s₀.pipe = { s.pipe with toRing := ring } := by rw [hs₀]
  have hle : copies addr left i ≤ left := copies_le addr
  rcases hends with ⟨hfills, hlength, hstop, rfl⟩ | ⟨hfills, hlength, hopen, s₁, j, hwake, rfl⟩ |
    ⟨hfills, hlength, s₁, hwake, rfl⟩
  · have hnobody : Wakes [] s.phase s₀.phase := Or.inl ⟨rfl, hphase⟩
    have hidle : (s₀.leave t).Idle ↔ _ := idle_iff hnobody ht rfl rfl
    have hp : (s₀.leave t).pipe = { s.pipe with toRing := ring } := hpipe
    have hnot : ¬ (s.pipe.readopen = true ∧ killed = false) := by
      rintro ⟨hopen, halive⟩
      rcases hstop with h | h
      · exact absurd hopen (by rw [h]; exact Bool.false_ne_true)
      · exact absurd h (by rw [halive]; exact Bool.false_ne_true)
    rw [waitersRight_iff hidle, hp, WriteQuiet]
    refine ⟨hlength.le, ?_⟩
    have hne : pipeSize ≠ 0 := by decide
    constructor
    · intro h
      by_cases hother : s.OtherAwake t
      · exact Or.inl hother
      obtain ⟨hr, hw⟩ := h ⟨hother, rfl⟩
      have hnoreader := hr.resolve_right fun h => hne (hlength.symm.trans h.1)
      exact Or.inr (Or.inl ⟨hfills, Or.inr ⟨hnoreader, hw.imp_right And.right⟩⟩)
    · rintro h ⟨hother, -⟩
      rcases h with h | ⟨-, h | ⟨hr, hw⟩⟩ | ⟨h, -⟩
      · exact absurd h hother
      · exact absurd h hnot
      · exact ⟨Or.inl hr, hw.imp_right fun h => ⟨hlength, h⟩⟩
      · exact absurd hfills h
  · obtain ⟨hwakes, hp₁⟩ := wakeupReader_wakes hwake
    rw [hpipe, hphase] at hwakes
    rw [hpipe] at hp₁
    have hidle : (s₁.sleepWriting t addr n j).Idle ↔ _ := idle_iff hwakes ht rfl rfl
    have hp : (s₁.sleepWriting t addr n j).pipe = { s.pipe with
        toRing := ring, rwaiter := s.pipe.rwaiter.tail, wwaiter := s.pipe.wwaiter ++ [t] } := by
      rw [sleepWriting, hp₁]
    rw [waitersRight_iff hidle, hp]
    refine ⟨hlength.le, iff_of_true ?_ (Or.inr (Or.inl ⟨hfills, Or.inl hopen⟩))⟩
    rintro ⟨-, hnone⟩
    exact ⟨Or.inl (by rw [hnone]; rfl), Or.inr ⟨hlength, hopen.1⟩⟩
  · obtain ⟨hwakes, hp₁⟩ := wakeupReader_wakes hwake
    rw [hpipe, hphase] at hwakes
    rw [hpipe] at hp₁
    have hidle : (s₁.leave t).Idle ↔ _ := idle_iff hwakes ht rfl rfl
    have hp : (s₁.leave t).pipe = { s.pipe with
        toRing := ring, rwaiter := s.pipe.rwaiter.tail } := hp₁
    rw [waitersRight_iff hidle, hp, WriteQuiet]
    refine ⟨?_, ?_⟩
    · rw [Fills] at hfills
      dsimp only
      omega
    · dsimp only
      rw [hlength]
      constructor
      · intro h
        by_cases hother : s.OtherAwake t
        · exact Or.inl hother
        refine Or.inr (Or.inr ⟨hfills, or_iff_not_imp_left.mpr fun hr => ?_⟩)
        exact (h ⟨hother, not_not.mp hr⟩).2
      · rintro h ⟨hother, hnone⟩
        refine ⟨Or.inl (by rw [hnone]; rfl), ?_⟩
        rcases h with h | ⟨h, -⟩ | ⟨-, hr | h⟩
        · exact absurd h hother
        · exact absurd h hfills
        · exact absurd hnone hr
        · exact h

theorem piperead_waiters {addr : ℕ → Bool} {r : Option ℤ}
    (hsize : s.pipe.length ≤ pipeSize) (ht : (s.phase t).asleep = false)
    (hcall : s.piperead t addr n killed = some (r, s')) :
    s'.pipe.length ≤ pipeSize ∧ (s'.WaitersRight ↔ s.ReadQuiet t addr n) := by
  have hnobody : Wakes [] s.phase s.phase := Or.inl ⟨rfl, rfl⟩
  have hne : 0 ≠ pipeSize := by decide
  rw [piperead] at hcall
  by_cases hempty : s.pipe.length = 0 ∧ s.pipe.writeopen = true
  · obtain ⟨hlength, hopen⟩ := hempty
    have hquiet : s.ReadQuiet t addr n ↔ (¬ s.OtherAwake t → s.pipe.wwaiter = []) := by
      rw [← or_iff_not_imp_left, ReadQuiet]
      refine or_congr_right ⟨?_, fun h => Or.inl ⟨hlength, hopen, h⟩⟩
      rintro (⟨-, -, h⟩ | ⟨h, -⟩)
      · exact h
      · exact absurd ⟨hlength, hopen⟩ h
    have hfull : s.pipe.length ≠ pipeSize := hlength ▸ hne
    rw [if_pos ⟨Ring.length_eq_zero_iff.mp hlength, hopen⟩] at hcall
    rw [hquiet]
    split_ifs at hcall
    · obtain ⟨-, rfl⟩ := Prod.mk.inj (Option.some.inj hcall)
      have hidle : (s.leave t).Idle ↔ _ := idle_iff hnobody ht rfl rfl
      rw [waitersRight_iff hidle]
      exact ⟨hsize, fun h hother => (h ⟨hother, rfl⟩).2.resolve_right fun h => hfull h.1,
        fun h hs => ⟨Or.inr ⟨hlength, hopen⟩, Or.inl (h hs.1)⟩⟩
    · obtain ⟨-, rfl⟩ := Prod.mk.inj (Option.some.inj hcall)
      have hidle : (s.sleepReading t addr n).Idle ↔ _ := idle_iff hnobody ht rfl rfl
      rw [waitersRight_iff hidle]
      exact ⟨hsize, fun h hother => (h ⟨hother, rfl⟩).2.resolve_right fun h => hfull h.1,
        fun h hs => ⟨Or.inr ⟨hlength, hopen⟩, Or.inl (h hs.1)⟩⟩
  · rw [if_neg fun h => hempty ⟨Ring.length_eq_zero_iff.mpr h.1, h.2⟩] at hcall
    obtain ⟨ring, delivered, hloop, hle, hzero⟩ := s.pipereadLoop_empties n 0 addr
    simp only [Nat.zero_add] at hzero
    obtain ⟨s₁, hwake, heq⟩ := Option.map_eq_some_iff.mp hcall
    obtain ⟨-, rfl⟩ := Prod.mk.inj heq
    rw [hloop] at hwake
    obtain ⟨hwakes, hp₁⟩ := wakeupWriter_wakes hwake
    have hidle : (s₁.leave t).Idle ↔ _ := idle_iff hwakes ht rfl rfl
    have hp : (s₁.leave t).pipe = { s.pipe with
        toRing := ring, wwaiter := s.pipe.wwaiter.tail } := hp₁
    rw [waitersRight_iff hidle, hp, ReadQuiet]
    refine ⟨hle.trans hsize, ?_⟩
    dsimp only
    rw [hzero]
    constructor
    · intro h
      by_cases hother : s.OtherAwake t
      · exact Or.inl hother
      refine Or.inr (Or.inr ⟨hempty, or_iff_not_imp_left.mpr fun hw => ?_⟩)
      exact (h ⟨hother, not_not.mp hw⟩).1.imp_right fun h => ⟨h.2, h.1⟩
    · rintro h ⟨hother, hnone⟩
      refine ⟨?_, Or.inl (by rw [hnone]; rfl)⟩
      rcases h with h | ⟨hlength, hopen, -⟩ | ⟨-, hw | h⟩
      · exact absurd h hother
      · exact absurd ⟨hlength, hopen⟩ hempty
      · exact absurd hnone hw
      · exact h.imp_right fun h => ⟨h.2, h.1⟩

theorem pipeclose_waiters {writable : Bool} (hsize : s.pipe.length ≤ pipeSize)
    (hright : s.WaitersRight) (hcall : s.pipeclose writable = some s') :
    s'.pipe.length ≤ pipeSize ∧ s'.WaitersRight := by
  rw [waitersRight_iff Iff.rfl] at hright
  cases writable with
  | true =>
      have hwake : wakeupReader { s with pipe := { s.pipe with writeopen := false } } = some s' :=
        hcall
      obtain ⟨hwakes, hp⟩ := wakeupReader_wakes hwake
      have hidle := idle_iff_of_wakes hwakes
      rw [waitersRight_iff hidle, hp]
      refine ⟨hsize, fun ⟨hs, hnone⟩ => ⟨Or.inl ?_, (hright hs).2⟩⟩
      exact (congrArg List.tail hnone).trans rfl
  | false =>
      have hwake : wakeupWriter { s with pipe := { s.pipe with readopen := false } } = some s' :=
        hcall
      obtain ⟨hwakes, hp⟩ := wakeupWriter_wakes hwake
      have hidle := idle_iff_of_wakes hwakes
      rw [waitersRight_iff hidle, hp]
      refine ⟨hsize, fun ⟨hs, hnone⟩ => ⟨(hright hs).1, Or.inl ?_⟩⟩
      exact (congrArg List.tail hnone).trans rfl

/-- A turn leaves those asleep right if and only if it meets the condition. -/
theorem PipeStep.waiters {op : PipeOp ι} {r : Option ℤ} (hsize : s.pipe.length ≤ pipeSize)
    (hright : s.WaitersRight) (hstep : PipeStep s (op, r) s') :
    s'.pipe.length ≤ pipeSize ∧ (s'.WaitersRight ↔ s.Quiet op) := by
  obtain ⟨hp, hcall⟩ := hstep
  cases op with
  | write t addr n killed => exact pipewriteLoop_waiters hsize (by rw [hp.1]; rfl) hcall
  | read t addr n killed => exact piperead_waiters hsize (by rw [hp.1]; rfl) hcall
  | resume t killed =>
      simp only [pipeStep] at hcall
      simp only [Quiet]
      rcases hp with ⟨addr, n, i, hphase⟩ | ⟨addr, n, hphase⟩
      · rw [hphase] at hcall ⊢
        exact pipewriteLoop_waiters hsize (by rw [hphase]; rfl) hcall
      · rw [hphase] at hcall ⊢
        exact piperead_waiters hsize (by rw [hphase]; rfl) hcall
  | close writable =>
      obtain ⟨s₁, hclose, heq⟩ := Option.map_eq_some_iff.mp hcall
      obtain ⟨-, rfl⟩ := Prod.mk.inj heq
      obtain ⟨hsize₁, hright₁⟩ := pipeclose_waiters hsize hright hclose
      exact ⟨hsize₁, iff_of_true hright₁ trivial⟩

/-- A turn that meets the condition. -/
def QuietStep (s : PipeSystem ι) (a : PipeOp ι × Option ℤ) (s' : PipeSystem ι) : Prop :=
  PipeStep s a s' ∧ s.Quiet a.1

theorem waiters_of_run {data : ℕ → Byte} {ls : List (PipeOp ι × Option ℤ)}
    (hrun : Run QuietStep (pipealloc data) ls s) :
    s.pipe.length ≤ pipeSize ∧ s.WaitersRight := by
  induction ls using List.reverseRecOn generalizing s with
  | nil =>
      cases hrun
      exact ⟨(pipealloc_ok data).size, fun _ h => absurd rfl h, fun _ h => absurd rfl h⟩
  | append_singleton ls l ih =>
      obtain ⟨s₁, hbefore, hstep, hquiet⟩ := hrun.snoc_inv
      obtain ⟨hsize, hright⟩ := ih hbefore
      obtain ⟨hsize', hiff⟩ := PipeStep.waiters hsize hright hstep
      exact ⟨hsize', hiff.mpr hquiet⟩

/-- While every turn meets the condition, a pipe with nobody runnable inside has readers asleep
only if it is empty and open for writing, and writers only if it is full and open for reading. The
first turn that does not meet the condition breaks this. -/
theorem waiters_right_iff {data : ℕ → Byte} {ls : List (PipeOp ι × Option ℤ)}
    (hrun : Run QuietStep (pipealloc data) ls s) :
    s.WaitersRight ∧ ∀ op r s', PipeStep s (op, r) s' → (s'.WaitersRight ↔ s.Quiet op) := by
  obtain ⟨hsize, hright⟩ := waiters_of_run hrun
  exact ⟨hright, fun op r s' hstep => (PipeStep.waiters hsize hright hstep).2⟩

/-- A reader is asleep when two bytes come. -/
theorem waiters_right_two_bytes : ∃ s : PipeSystem Bool, Run QuietStep (pipealloc fun _ => 0)
    [(.read true (fun _ => true) 5 false, none),
      (.write false (fun k => some (k + 7)) 2 false, some 2)] s ∧ s.WaitersRight := by
  have hrun : ∃ s : PipeSystem Bool, Run QuietStep (pipealloc fun _ => 0)
      [(.read true (fun _ => true) 5 false, none),
        (.write false (fun k => some (k + 7)) 2 false, some 2)] s := by
    refine ⟨_, .step ⟨⟨⟨rfl, rfl⟩, rfl⟩, Or.inr (Or.inl ⟨rfl, rfl, rfl⟩)⟩
      (.single ⟨⟨⟨rfl, rfl⟩, rfl⟩, Or.inr (Or.inr ⟨fun h => ?_, Or.inl (List.cons_ne_nil _ _)⟩)⟩)⟩
    exact absurd h.1 (by decide)
  obtain ⟨s, hrun⟩ := hrun
  exact ⟨s, hrun, (waiters_right_iff hrun).1⟩

/-- Two readers are asleep when the writing end is closed. One of them is woken and returns; the
other sleeps on. -/
theorem close_wakes_one : ∃ s : PipeSystem Bool, Run PipeStep (pipealloc fun _ => 0)
    [(.read false (fun _ => true) 1 false, none), (.read true (fun _ => true) 1 false, none),
      (.close true, some 0), (.resume false false, some 0)] s ∧
    s.Idle ∧ s.pipe.rwaiter = [true] ∧ s.pipe.writeopen = false ∧ ¬ s.WaitersRight := by
  have hrun : ∃ s : PipeSystem Bool, Run PipeStep (pipealloc fun _ => 0)
      [(.read false (fun _ => true) 1 false, none), (.read true (fun _ => true) 1 false, none),
        (.close true, some 0), (.resume false false, some 0)] s ∧
      s.Idle ∧ s.pipe.rwaiter = [true] ∧ s.pipe.writeopen = false := by
    refine ⟨_, .step ⟨⟨rfl, rfl⟩, rfl⟩ (.step ⟨⟨rfl, rfl⟩, rfl⟩ (.step ⟨rfl, rfl⟩
      (.single ⟨Or.inr ⟨_, _, rfl⟩, rfl⟩))), ?_, rfl, rfl⟩
    intro t
    cases t <;> rfl
  obtain ⟨s, hrun, hidle, hwaiter, hclosed⟩ := hrun
  refine ⟨s, hrun, hidle, hwaiter, hclosed, fun hright => ?_⟩
  have hopen := (hright.readers hidle (by rw [hwaiter]; exact List.cons_ne_nil true [])).2
  rw [hclosed] at hopen
  cases hopen

end Turns

end PipeSystem

end K210Os
