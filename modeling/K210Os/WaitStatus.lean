import K210Os.KernelLockRuns
import K210Os.UserCopy

/-!
# What a `waitpid` returns and leaves behind

The status is shifted in place, before `copyout2` may refuse it. The exit with 0 keeps the lock
of the caller.
-/

namespace K210Os

open DoublyLinked Transition

/-- Whether the operation changes the queues and the statuses alone. -/
def ProcOp.isSchedule {ι ω : Type*} : ProcOp ι ω → Bool
  | .init _ => true
  | .dispatch => true
  | .suspend => true
  | .sleep _ => true
  | .wakeupFromwq _ => true
  | _ => false

namespace Processes

variable {ι ω : Type*} [DecidableEq ι] {s s' : Processes ι ω} {initproc p x : ι}
  {cs : ι → List ι} {pid : BitVec 64}

/-- A child that can be reported. -/
def Reportable (s : Processes ι ω) (pid : BitVec 64) (c : ι) : Prop :=
  s.Wanted pid c ∧ s.tasks.status c = .zombie

instance decidableReportable (s : Processes ι ω) (pid : BitVec 64) (c : ι) :
    Decidable (s.Reportable pid c) := inferInstanceAs (Decidable (_ ∧ _))

/-- The first child that can be reported. -/
def firstZombie (s : Processes ι ω) (pid : BitVec 64) (xs : List ι) : Option ι :=
  xs.find? fun c => decide (s.Reportable pid c)

omit [DecidableEq ι] in
theorem firstZombie_some {c : ι} {xs : List ι} (h : s.firstZombie pid xs = some c) :
    c ∈ xs ∧ s.Reportable pid c :=
  ⟨List.mem_of_find?_eq_some h, by simpa using List.find?_some h⟩

omit [DecidableEq ι] in
theorem firstZombie_none {xs : List ι} (h : s.firstZombie pid xs = none) {c : ι} (hc : c ∈ xs) :
    ¬ s.Reportable pid c := by
  have hfalse := List.find?_eq_none.mp h c hc
  exact fun hz => hfalse (decide_eq_true hz)

/-- The scan ends at the first child that can be reported; without one it comes to every child. -/
theorem scan_find {a : Node ι ι} {xs : List ι} {fuel : ℕ} (pid : BitVec 64) (flag : Bool)
    (hl : Linked s.child a (xs.map .elem) (.tail p)) (hfuel : xs.length < fuel) :
    ∃ flag', ((s.child.next a).bind fun elem => s.scan p pid fuel elem flag) =
        some (s.firstZombie pid xs, flag') ∧
      (∀ c ∈ (s.child.next a).elim [] (s.scanned p pid fuel), c ∈ xs) ∧
      (s.firstZombie pid xs = none →
        (s.child.next a).elim [] (s.scanned p pid fuel) = xs ∧
          (flag' = true ↔ flag = true ∨ ∃ c ∈ xs, s.Wanted pid c)) := by
  induction xs generalizing a fuel flag with
  | nil =>
      obtain ⟨fuel, rfl⟩ := Nat.exists_eq_add_one_of_ne_zero (by omega : fuel ≠ 0)
      have hn : s.child.next a = some (.tail p) := hl.1
      exact ⟨flag, by simp [hn, scan, firstZombie], by simp [hn, scanned], fun _ =>
        ⟨by simp [hn, scanned], by simp⟩⟩
  | cons x xs ih =>
      obtain ⟨fuel, rfl⟩ := Nat.exists_eq_add_one_of_ne_zero (by omega : fuel ≠ 0)
      obtain ⟨hn, -, hl⟩ := hl
      rw [List.length_cons] at hfuel
      simp only [hn, Option.elim_some, Option.bind_some, scanned, scan,
        if_neg (by simp : Node.elem x ≠ Node.tail p)]
      by_cases hw : s.Wanted pid x
      · by_cases hz : s.tasks.status x = .zombie
        · have hfirst : s.firstZombie pid (x :: xs) = some x :=
            List.find?_cons_of_pos (decide_eq_true ⟨hw, hz⟩)
          exact ⟨true, by simp [hw, hz, hfirst], by simp [hw, hz], by simp [hfirst]⟩
        · have hrest : s.firstZombie pid (x :: xs) = s.firstZombie pid xs :=
            List.find?_cons_of_neg fun h => hz (of_decide_eq_true h).2
          obtain ⟨flag', hrun, hsub, hnone⟩ := ih true hl (by omega : xs.length < fuel)
          refine ⟨flag', by simpa [hw, hz, hrest] using hrun, fun c hc => ?_, fun h => ?_⟩
          · rw [if_neg fun h => hz h.2] at hc
            exact List.mem_cons.mpr ((List.mem_cons.mp hc).imp id (hsub c))
          · obtain ⟨hall, hflag⟩ := hnone (hrest ▸ h)
            rw [if_neg fun h => hz h.2, hall, hflag]
            exact ⟨rfl, by simp [hw]⟩
      · have hrest : s.firstZombie pid (x :: xs) = s.firstZombie pid xs :=
          List.find?_cons_of_neg fun h => hw (of_decide_eq_true h).1
        obtain ⟨flag', hrun, hsub, hnone⟩ := ih flag hl (by omega : xs.length < fuel)
        refine ⟨flag', by simpa [hw, hrest] using hrun, fun c hc => ?_, fun h => ?_⟩
        · rw [if_neg fun h => hw h.1] at hc
          exact List.mem_cons.mpr ((List.mem_cons.mp hc).imp id (hsub c))
        · obtain ⟨hall, hflag⟩ := hnone (hrest ▸ h)
          rw [if_neg fun h => hw h.1, hall, hflag]
          exact ⟨rfl, by simp [hw]⟩

/-- `waitpid` looks for a child in the list of its caller. -/
theorem TreeOk.scanChildren_find (h : TreeOk initproc s cs) (hp : p ∈ s.tasks.known)
    (call : WaitCall) :
    ∃ flag, s.scanChildren p call = some (s.firstZombie call.pid (cs p), flag) ∧
      (∀ c ∈ s.reached p call.pid, c ∈ cs p) ∧
      (s.firstZombie call.pid (cs p) = none → s.reached p call.pid = cs p ∧
        (flag = true ↔ call.flag = true ∨ ∃ c ∈ cs p, s.Wanted call.pid c)) :=
  scan_find call.pid call.flag (h.child.linked p hp) (Nat.lt_succ_of_le (h.length_le p))

/-- The child lists and the exit codes are as they were. -/
def Untouched (s s' : Processes ι ω) : Prop := s'.child = s.child ∧ s'.exitCode = s.exitCode

variable [DecidableEq ω] {call : WaitCall} {copied flag : Bool} {r : Option (BitVec 64)}

/-- A round that finds no child to report. -/
theorem waitRound_miss (hscan : s.scanChildren p call = some (none, flag))
    (hst : s.tasks.status p ≠ .zombie) (hrun : s.waitRound p call copied = some (r, s')) :
    s.Untouched s' ∧ (flag = false ∧ r = some (-1) ∨
      flag = true ∧ r = if call.options = 0 then none else some 0) := by
  simp only [waitRound, hscan, Option.bind_some] at hrun
  split_ifs at hrun with hend hopt
  · obtain ⟨rfl, rfl⟩ := Prod.mk.inj (Option.some.inj hrun)
    exact ⟨⟨rfl, rfl⟩, Or.inl ⟨hend.resolve_right hst, rfl⟩⟩
  · obtain ⟨tasks, -, heq⟩ := Option.map_eq_some_iff.mp hrun
    obtain ⟨rfl, rfl⟩ := Prod.mk.inj heq
    have hflag : flag = true := Bool.not_eq_false _ ▸ fun hf => hend (Or.inl hf)
    exact ⟨⟨rfl, rfl⟩, Or.inr ⟨hflag, (if_pos hopt).symm⟩⟩
  · obtain ⟨rfl, rfl⟩ := Prod.mk.inj (Option.some.inj hrun)
    have hflag : flag = true := Bool.not_eq_false _ ▸ fun hf => hend (Or.inl hf)
    exact ⟨⟨rfl, rfl⟩, Or.inr ⟨hflag, (if_neg hopt).symm⟩⟩

/-- A round that finds the child `x`: it is reported, or the status is refused. -/
theorem TreeOk.waitRound_hit (h : TreeOk initproc s cs) (hx : x ∈ cs p)
    (hscan : s.scanChildren p call = some (some x, flag))
    (hrun : s.waitRound p call copied = some (r, s')) :
    (∀ y ≠ x, s'.exitCode y = s.exitCode y) ∧ s'.exitCode x = s.exitCode x <<< 8 ∧
      ((call.codeExitAddr ≠ 0 ∧ copied = false) ∧ r = some (-1) ∧ s'.child = s.child ∨
        ¬ (call.codeExitAddr ≠ 0 ∧ copied = false) ∧ r = some (s.pid x) ∧
          Represents s'.child (· ∈ s.tasks.known) (Function.update cs p ((cs p).erase x))) := by
  obtain ⟨xs, ys, hcs⟩ := List.append_of_mem hx
  obtain ⟨L, hremove, hrep, -⟩ := h.child.remove hcs
  have hnot : x ∉ xs := by
    have hnodup := h.child.nodup p
    rw [hcs, List.nodup_append] at hnodup
    exact fun hin => hnodup.2.2 x hin x List.mem_cons_self rfl
  have herase : (cs p).erase x = xs ++ ys := by
    rw [hcs, List.erase_append_right _ hnot, List.erase_cons_head]
  simp only [Processes.waitRound, hscan, Option.bind_some, report] at hrun
  split_ifs at hrun with hfail
  · obtain ⟨rfl, rfl⟩ := Prod.mk.inj (Option.some.inj hrun)
    exact ⟨fun y hy => Function.update_of_ne hy _ _, Function.update_self x _ _,
      Or.inl ⟨hfail, rfl, rfl⟩⟩
  · simp only [hremove, Option.map_some, Option.some.injEq, Prod.mk.injEq] at hrun
    obtain ⟨rfl, rfl⟩ := hrun
    refine ⟨fun y hy => Function.update_of_ne hy _ _, Function.update_self x _ _,
      Or.inr ⟨hfail, rfl, ?_⟩⟩
    rw [herase]
    exact hrep

/-! ### What a process in `waitpid` waits for -/

/-- A process that has seen a child that it wants has one. -/
def Awaits (initproc : ι) (s : Processes ι ω) : Prop :=
  ∀ t call, s.call t = some call → call.flag = true →
    ∃ x, s.Unreaped initproc x ∧ s.parent x = some t ∧ s.Wanted call.pid x

/-- The children of `t` stay its children. -/
def KeepsChildren (initproc : ι) (s : Processes ι ω) (t : ι) (s' : Processes ι ω) : Prop :=
  ∀ x, s.Unreaped initproc x → s.parent x = some t →
    s'.Unreaped initproc x ∧ s'.parent x = some t ∧ s'.pid x = s.pid x

omit [DecidableEq ι] [DecidableEq ω] in
theorem KeepsChildren.exists (h : KeepsChildren initproc s p s') {pid : BitVec 64}
    (hx : ∃ x, s.Unreaped initproc x ∧ s.parent x = some p ∧ s.Wanted pid x) :
    ∃ x, s'.Unreaped initproc x ∧ s'.parent x = some p ∧ s'.Wanted pid x := by
  obtain ⟨x, hun, hparent, hw⟩ := hx
  obtain ⟨hun', hparent', hpid⟩ := h x hun hparent
  exact ⟨x, hun', hparent', hw.imp id fun heq => heq.trans hpid.symm⟩

omit [DecidableEq ι] [DecidableEq ω] in
theorem keepsChildren_of_fields (hknown : ∀ t, t ∈ s.tasks.known → t ∈ s'.tasks.known)
    (hreaped : s'.reaped = s.reaped) (hparent : s'.parent = s.parent) (hpid : s'.pid = s.pid)
    (t : ι) : KeepsChildren initproc s t s' := by
  refine fun x hun hx => ⟨⟨hknown x hun.1, hun.2.1, ?_⟩, by rw [hparent, hx], by rw [hpid]⟩
  rw [Reaped, hreaped]
  exact hun.2.2

theorem TreeOk.keepsChildren_exit (h : TreeOk initproc s cs) (hp : s.tasks.running = some p)
    {code : BitVec 32} {closed : List (TaskQueue ω)}
    (hexit : exitCurrentAndRunNext initproc s p code closed = some s') {t : ι} (ht : t ≠ p) :
    KeepsChildren initproc s t s' := by
  rw [exitCurrentAndRunNext] at hexit
  split_ifs at hexit with hinit
  obtain ⟨s₁, hadopt, hexit⟩ := Option.bind_eq_some_iff.mp hexit
  obtain ⟨q, -, hexit⟩ := Option.bind_eq_some_iff.mp hexit
  obtain ⟨tasks, hrun, rfl⟩ := Option.map_eq_some_iff.mp hexit
  have h₀ : TreeOk initproc { s with exitCode := Function.update s.exitCode p code } cs :=
    h.of_fields rfl rfl rfl rfl
  obtain ⟨s₂, cs₂, hadopt₂, h₂, -, htasks, hreaped, -, hpid, hparent⟩ :=
    h₀.adopt hinit (h.running hp).1 (Nat.lt_succ_of_le (h.length_le p))
  obtain rfl := Option.some.inj (hadopt.symm.trans hadopt₂)
  intro x hun hx
  have hknown : tasks.known = s.tasks.known := by rw [(Tasks.sameMade_exit hrun).2, htasks]
  have hun₁ : s₁.Unreaped initproc x := by
    refine ⟨htasks ▸ hun.1, hun.2.1, ?_⟩
    rw [Reaped, hreaped]
    exact hun.2.2
  obtain ⟨q', -, hq', -⟩ := h₂.parent x hun₁
  refine ⟨⟨hknown ▸ hun.1, hun.2.1, hun₁.2.2⟩, ?_, congrFun hpid x⟩
  rcases hparent x q' hq' with hsame | ⟨-, hother⟩
  · obtain rfl := Option.some.inj (hx.symm.trans hsame)
    exact hq'
  · exact absurd (Option.some.inj (hx.symm.trans hother)) ht

theorem keepsChildren_fork {c : ι} {pid : BitVec 64} (hc : c ∉ s.tasks.known)
    (hfork : s.fork p c = some (pid, s')) (t : ι) : KeepsChildren initproc s t s' := by
  simp only [fork, Option.bind_eq_some_iff, Option.map_eq_some_iff] at hfork
  obtain ⟨L, -, tasks, hadd, heq⟩ := hfork
  obtain ⟨-, rfl⟩ := Prod.mk.inj heq
  intro x hun hx
  have hne : x ≠ c := fun heq => hc (heq ▸ hun.1)
  have hknown : x ∈ tasks.known := by
    rw [(Tasks.sameMade_taskAdd hadd).2]
    exact List.mem_cons_of_mem c hun.1
  refine ⟨⟨hknown, hun.2⟩, ?_, Function.update_of_ne hne _ _⟩
  exact (Function.update_of_ne hne _ _).trans hx

/-- A step outside `waitpid`, for a process that is inside. -/
theorem keepsChildren_of_procStep {op : ProcOp ι ω}
    (hrun : procStep initproc s op = some (r, s')) (hop : op.isWaitpid = false)
    (hexit : ∀ code closed, op = .exit code closed → ∃ cs, TreeOk initproc s cs)
    (hnew : ∀ c, op = .fork c → c ∉ s.tasks.known ∧ s.call c = none) {t : ι}
    (ht : (s.call t).isSome = true) : KeepsChildren initproc s t s' := by
  have hgrows := (procStep_keeps hrun hop fun c hc => (hnew c hc).2).1
  have hschedule : ∀ {tasks}, s.schedule tasks = some (r, s') →
      KeepsChildren initproc s t s' := by
    intro tasks hrun
    obtain ⟨tasks, -, heq⟩ := Option.map_eq_some_iff.mp hrun
    obtain ⟨-, rfl⟩ := Prod.mk.inj heq
    exact keepsChildren_of_fields hgrows.known rfl rfl rfl t
  cases op with
  | init w => exact hschedule hrun
  | dispatch => exact hschedule hrun
  | suspend =>
      obtain ⟨p, -, hrun⟩ := Option.bind_eq_some_iff.mp hrun
      exact hschedule hrun
  | sleep w =>
      obtain ⟨p, -, hrun⟩ := Option.bind_eq_some_iff.mp hrun
      exact hschedule hrun
  | wakeupFromwq w => exact hschedule hrun
  | fork c =>
      obtain ⟨p, -, hrun⟩ := Option.bind_eq_some_iff.mp hrun
      obtain ⟨⟨pid, s₁⟩, hfork, heq⟩ := Option.map_eq_some_iff.mp hrun
      obtain ⟨-, rfl⟩ := Prod.mk.inj heq
      exact keepsChildren_fork (hnew c rfl).1 hfork t
  | exit code closed =>
      obtain ⟨p, hcur, hrun⟩ := Option.bind_eq_some_iff.mp hrun
      obtain ⟨s₁, hcall, heq⟩ := Option.map_eq_some_iff.mp hrun
      obtain ⟨-, rfl⟩ := Prod.mk.inj heq
      obtain ⟨cs, htree⟩ := hexit code closed rfl
      refine htree.keepsChildren_exit (running_of_current hcur) hcall ?_
      rintro rfl
      obtain ⟨q, -, hq⟩ := Option.bind_eq_some_iff.mp hcur
      obtain ⟨hnone, hq⟩ := Option.ite_none_right_eq_some.mp hq
      obtain rfl := Option.some.inj hq
      rw [Option.isNone_iff_eq_none.mp hnone] at ht
      cases ht
  | waitpid pid addr options copied => cases hop
  | resume copied => cases hop

/-- A round of `waitpid`: where it goes to sleep, it remembers a child. -/
theorem Awaits.waitRound (h : Awaits initproc s) (htree : TreeOk initproc s cs)
    (hp : s.tasks.running = some p) (hcall : call.flag = true → s.call p = some call)
    (hrun : s.waitRound p call copied = some (r, s')) : Awaits initproc s' := by
  obtain ⟨hknown, hst⟩ := htree.running hp
  obtain ⟨flag, hscan, -, hmiss⟩ := htree.scanChildren_find hknown call
  have hchild : ∀ {pid : BitVec 64}, (∃ c ∈ cs p, s.Wanted pid c) →
      ∃ x, s.Unreaped initproc x ∧ s.parent x = some p ∧ s.Wanted pid x := fun ⟨c, hc, hw⟩ =>
    ⟨c, ((htree.mem p c).mp hc).1, ((htree.mem p c).mp hc).2, hw⟩
  obtain ⟨hgrows, c, hcalls, hsleeps⟩ := waitRound_keeps hrun
  have hothers : ∀ {t call'}, t ≠ p → KeepsChildren initproc s t s' → s'.call t = some call' →
      call'.flag = true → ∃ x, s'.Unreaped initproc x ∧ s'.parent x = some t ∧
        s'.Wanted call'.pid x := by
    intro t call' ht hkeeps hc hf
    rw [hcalls, Function.update_of_ne ht] at hc
    exact hkeeps.exists (h t call' hc hf)
  simp only [Processes.waitRound, hscan, Option.bind_some] at hrun
  cases hfirst : s.firstZombie call.pid (cs p) with
  | some x =>
      obtain ⟨hx, -⟩ := firstZombie_some hfirst
      have hparent : s.parent x = some p := ((htree.mem p x).mp hx).2
      rw [hfirst] at hrun
      obtain ⟨⟨pid, s₁⟩, hreport, heq⟩ := Option.map_eq_some_iff.mp hrun
      obtain ⟨rfl, rfl⟩ := Prod.mk.inj heq
      have hnone : c = none := by
        cases c with
        | none => rfl
        | some c => cases hsleeps.mp rfl
      intro t call' hc hf
      by_cases ht : t = p
      · rw [hcalls, ht, Function.update_self, hnone] at hc
        cases hc
      · refine hothers ht ?_ hc hf
        rw [report] at hreport
        split_ifs at hreport
        · obtain ⟨-, rfl⟩ := Prod.mk.inj (Option.some.inj hreport)
          exact keepsChildren_of_fields (fun _ => id) rfl rfl rfl t
        · obtain ⟨L, -, heq⟩ := Option.map_eq_some_iff.mp hreport
          obtain ⟨-, rfl⟩ := Prod.mk.inj heq
          intro y hun hy
          refine ⟨⟨hun.1, hun.2.1, fun hin => ?_⟩, hy, rfl⟩
          rcases List.mem_cons.mp hin with rfl | hin
          · exact ht (Option.some.inj (hy.symm.trans hparent))
          · exact hun.2.2 hin
  | none =>
      obtain ⟨-, hflag⟩ := hmiss hfirst
      rw [hfirst] at hrun
      dsimp only at hrun
      have hkeeps : ∀ t, KeepsChildren initproc s t s' ∧
          (t = p → s'.call p = none ∨ s'.call p = some { call with flag }) := by
        intro t
        split_ifs at hrun
        · obtain ⟨-, rfl⟩ := Prod.mk.inj (Option.some.inj hrun)
          exact ⟨keepsChildren_of_fields (fun _ => id) rfl rfl rfl t,
            fun _ => Or.inl (Function.update_self p _ _)⟩
        · obtain ⟨tasks, -, heq⟩ := Option.map_eq_some_iff.mp hrun
          obtain ⟨-, rfl⟩ := Prod.mk.inj heq
          exact ⟨keepsChildren_of_fields hgrows.known rfl rfl rfl t,
            fun _ => Or.inr (Function.update_self p _ _)⟩
        · obtain ⟨-, rfl⟩ := Prod.mk.inj (Option.some.inj hrun)
          exact ⟨keepsChildren_of_fields (fun _ => id) rfl rfl rfl t,
            fun _ => Or.inl (Function.update_self p _ _)⟩
      intro t call' hc hf
      by_cases ht : t = p
      · subst ht
        rcases (hkeeps t).2 rfl with hnone | hsome
        · rw [hnone] at hc
          cases hc
        · obtain rfl := Option.some.inj (hsome.symm.trans hc)
          refine (hkeeps t).1.exists ((hflag.mp hf).elim (fun hold => ?_) hchild)
          exact h t call (hcall hold) hold
      · exact hothers ht (hkeeps t).1 hc hf

theorem Awaits.step (h : Awaits initproc s) {op : ProcOp ι ω} (hop : op.isWaitpid = false)
    (hexit : ∀ code closed, op = .exit code closed → ∃ cs, TreeOk initproc s cs)
    (hnew : ∀ c, op = .fork c → c ∉ s.tasks.known ∧ s.call c = none)
    (hrun : procStep initproc s op = some (r, s')) : Awaits initproc s' := by
  have hcall := (procStep_keeps hrun hop fun c hc => (hnew c hc).2).2
  intro t call hc hf
  rw [hcall] at hc
  exact (keepsChildren_of_procStep hrun hop hexit hnew (by rw [hc]; rfl)).exists (h t call hc hf)

theorem Awaits.wait (h : Awaits initproc s) (htree : TreeOk initproc s cs) {op : ProcOp ι ω}
    (hop : op.isWaitpid = true) (hrun : procStep initproc s op = some (r, s')) :
    Awaits initproc s' := by
  cases op with
  | waitpid pid addr options copied =>
      obtain ⟨p, hcur, hrun⟩ := Option.bind_eq_some_iff.mp hrun
      exact h.waitRound htree (running_of_current hcur) (fun hf => by cases hf) hrun
  | resume copied =>
      obtain ⟨p, hrunning, hrun⟩ := Option.bind_eq_some_iff.mp hrun
      obtain ⟨call, hcall, hrun⟩ := Option.bind_eq_some_iff.mp hrun
      exact h.waitRound htree hrunning (fun _ => hcall) hrun
  | init w => cases hop
  | dispatch => cases hop
  | suspend => cases hop
  | sleep w => cases hop
  | wakeupFromwq w => cases hop
  | fork c => cases hop
  | exit code closed => cases hop

end Processes

/-! ## A turn of `waitpid` -/

/-- What `copyout2` says of a status, `none` where it stops the system. -/
def statusCopy (task : Mytask) (mem : Memory) (addr : BitVec 64) (status : BitVec 32) : Option ℤ :=
  (copyout2 task mem addr.toNat (fun k => BitVec.ofNat 8 (status.toNat / 256 ^ k)) 4).1

namespace Kernel

open Processes Locking

variable {ι π : Type*} [DecidableEq ι] [DecidableEq π] {s s' : Kernel ι π} {initproc p : ι}
  {cs : ι → List ι} {call : WaitCall} {first : Bool} {task : Mytask} {mem : Memory}

/-- Whether the status is taken where there is one. -/
def statusTaken (task : Mytask) (mem : Memory) (s : Processes ι (WaitQueue π)) (p : ι)
    (call : WaitCall) : Option Bool :=
  match s.scanChildren p call with
  | some (some c, _) =>
      if call.codeExitAddr = 0 then some true
      else (statusCopy task mem call.codeExitAddr (s.exitCode c <<< 8)).map fun n => decide (0 ≤ n)
  | _ => some true

/-- The lock of the caller is taken where the call begins, and is still held where it comes back
from `sleep`. -/
def waitCalls (s : Kernel ι π) (p : ι) (call : WaitCall) (first : Bool) :
    List (LockCall (KernelLock ι π)) :=
  (if first then [.acquire (.tcb p)] else []) ++ Locking.waitRound s.procs p call

/-- A turn of a `waitpid` of the process `p`, with what it returns if it does not go to sleep. -/
def waitTurn (task : Mytask) (mem : Memory) (s : Kernel ι π) (p : ι) (call : WaitCall)
    (first : Bool) : Option (Option (BitVec 64) × Kernel ι π) :=
  (s.locks.calls (s.waitCalls p call first)).bind fun locks =>
    (statusTaken task mem s.procs p call).bind fun copied =>
      (s.procs.waitRound p call copied).map fun (r, procs) => (r, { s with procs, locks })

/-- Where a turn of `waitpid` can come. -/
def AtWait (s : Kernel ι π) (p : ι) (call : WaitCall) (first : Bool) : Prop :=
  if first then s.current = some p ∧ call.flag = false
  else s.procs.tasks.running = some p ∧ s.procs.call p = some call

/-- What a turn leaves that reports `c`, or cannot. -/
def ReportLaws (task : Mytask) (mem : Memory) (s : Processes ι (WaitQueue π)) (cs : ι → List ι)
    (p : ι) (call : WaitCall) (c : ι) (r : Option (BitVec 64)) (s' : Processes ι (WaitQueue π)) :
    Prop :=
  ((call.codeExitAddr = 0 ∨
      ∃ n, 0 ≤ n ∧ statusCopy task mem call.codeExitAddr (s.exitCode c <<< 8) = some n) ∧
    r = some (s.pid c) ∧
    Represents s'.child (· ∈ s.tasks.known) (Function.update cs p ((cs p).erase c)) ∧
    ∀ x ≠ c, s'.exitCode x = s.exitCode x) ∨
  ((call.codeExitAddr ≠ 0 ∧
      ∃ n, n < 0 ∧ statusCopy task mem call.codeExitAddr (s.exitCode c <<< 8) = some n) ∧
    r = some (-1) ∧ s.Untouched s')

/-- What the turn returns and leaves. -/
def WaitOutcome (task : Mytask) (mem : Memory) (s : Processes ι (WaitQueue π)) (cs : ι → List ι)
    (p : ι) (call : WaitCall) (r : Option (BitVec 64)) (s' : Processes ι (WaitQueue π)) : Prop :=
  match s.firstZombie call.pid (cs p) with
  | some c => ReportLaws task mem s cs p call c r s'
  | none => s.Untouched s' ∧
      ((∀ c ∈ cs p, ¬ s.Wanted call.pid c) ∧ r = some (-1) ∨
        (∃ c ∈ cs p, s.Wanted call.pid c) ∧ r = if call.options = 0 then none else some 0)

/-- What is wanted of a turn: its outcome, and on each return the locks of the caller and of the
children that it came to. -/
def WaitLaws (task : Mytask) (mem : Memory) (s : Kernel ι π) (cs : ι → List ι) (p : ι)
    (call : WaitCall) (first : Bool) : Prop :=
  ∃ r s', waitTurn task mem s p call first = some (r, s') ∧
    WaitOutcome task mem s.procs cs p call r s'.procs ∧
    (r ≠ none → ∀ c, c = p ∨ c ∈ s.procs.reached p call.pid →
      (s'.locks.lock (.tcb c)).locked = false)

/-- The condition `WaitMeets`; and `copyout2` does not stop, and refuses no status but 0. -/
def WaitQuiet (task : Mytask) (mem : Memory) (s : Kernel ι π) (cs : ι → List ι) (p : ι)
    (call : WaitCall) : Prop :=
  s.WaitMeets p call ∧ ∀ c, s.procs.firstZombie call.pid (cs p) = some c →
    call.codeExitAddr ≠ 0 →
      ∃ n, statusCopy task mem call.codeExitAddr (s.procs.exitCode c <<< 8) = some n ∧
        (n < 0 → s.procs.exitCode c = 0)

theorem shiftLeft_eq_self {x : BitVec 32} (h : x <<< 8 = x) : x = 0 := by
  have hall : x <<< 8 <<< 8 <<< 8 <<< 8 = x := by rw [h, h, h, h]
  rw [← hall, ← BitVec.shiftLeft_add, ← BitVec.shiftLeft_add, ← BitVec.shiftLeft_add]
  exact BitVec.shiftLeft_eq_zero (by decide)

/-- The locks before the round: that of the caller, and those of the others inside `sleep`. -/
theorem KernelOk.waitCalls (h : KernelOk initproc s) (hat : s.AtWait p call first) :
    s.procs.tasks.running = some p ∧ ∃ held H, s.locks.Holds held ∧ s.Others p H ∧
      runCalls held (s.waitCalls p call first) =
        runCalls (insert (.tcb p) H) (Locking.waitRound s.procs p call) := by
  obtain ⟨held, hheld, hs⟩ := h.locks
  cases first with
  | true =>
      obtain ⟨hcur, -⟩ := hat
      obtain ⟨-, hrunning, hcall, hpend⟩ := of_current hcur
      have hH := hs.others_of_awake (not_inSleep hcall hpend)
      refine ⟨hrunning, held, held, hheld, hH, ?_⟩
      rw [Kernel.waitCalls, if_pos rfl, List.singleton_append, runCalls_acquire, if_neg hH.free]
  | false =>
      obtain ⟨hrunning, hcall⟩ := hat
      have hsleep : s.InSleep p := Or.inl (by rw [hcall]; rfl)
      refine ⟨hrunning, held, held.erase (.tcb p), hheld, hs.others, ?_⟩
      rw [Kernel.waitCalls, if_neg Bool.false_ne_true, List.nil_append,
        Finset.insert_erase ((hs.mem_iff p).mpr hsleep)]

/-- A turn that meets the condition takes its locks and gives them back with its return. -/
theorem KernelOk.waitRound_locks (h : KernelOk initproc s) (htree : TreeOk initproc s.procs cs)
    (hat : s.AtWait p call first) (hmeets : s.WaitMeets p call) (copied : Bool) :
    ∃ r procs locks, s.procs.waitRound p call copied = some (r, procs) ∧
      s.locks.calls (s.waitCalls p call first) = some locks ∧
      (r ≠ none → ∀ c, c = p ∨ c ∈ s.procs.reached p call.pid →
        (locks.lock (.tcb c)).locked = false) := by
  obtain ⟨hrunning, held, H, hheld, hH, hcalls⟩ := h.waitCalls hat
  obtain ⟨r, procs, hrun, -, hends, -⟩ := waitRound_spec htree hrunning call copied hH
  obtain ⟨locks, hlocks, hheld'⟩ := (hheld.calls _).1 _ (hcalls.trans (hends hmeets))
  refine ⟨r, procs, locks, hrun, hlocks, fun hr c hc => hheld'.free _ ?_⟩
  have hnone : r.isNone = false := by
    cases r with
    | none => exact absurd rfl hr
    | some v => rfl
  rw [hnone]
  rcases hc with rfl | hc
  · exact hH.free
  · intro hin
    obtain ⟨t, -, heq, hsleep⟩ := (hH _).mp hin
    obtain rfl := KernelLock.tcb.inj heq
    exact hmeets.1 c hc hsleep

/-- A turn that breaks the condition finds a lock taken, or returns with its own. -/
theorem KernelOk.not_waitLaws (h : KernelOk initproc s) (htree : TreeOk initproc s.procs cs)
    (hat : s.AtWait p call first) (hmeets : ¬ s.WaitMeets p call) :
    ¬ WaitLaws task mem s cs p call first := by
  rintro ⟨r, s', hturn, -, hreleased⟩
  obtain ⟨hrunning, held, H, hheld, hH, hcalls⟩ := h.waitCalls hat
  obtain ⟨locks, hlocks, hturn⟩ := Option.bind_eq_some_iff.mp hturn
  obtain ⟨copied, -, hturn⟩ := Option.bind_eq_some_iff.mp hturn
  obtain ⟨⟨r', procs⟩, hrun, heq⟩ := Option.map_eq_some_iff.mp hturn
  obtain ⟨rfl, rfl⟩ := Prod.mk.inj heq
  obtain ⟨r, procs', hrun', -, -, hends⟩ := waitRound_spec htree hrunning call copied hH
  obtain ⟨rfl, rfl⟩ := Prod.mk.inj (Option.some.inj (hrun.symm.trans hrun'))
  rcases hends hmeets with hnone | ⟨hsome, rfl, -⟩
  · rw [(hheld.calls _).2 (hcalls.trans hnone)] at hlocks
    cases hlocks
  · obtain ⟨locks', hlocks', hheld'⟩ := (hheld.calls _).1 _ (hcalls.trans hsome)
    obtain rfl := Option.some.inj (hlocks.symm.trans hlocks')
    have hfree := hreleased (Option.some_ne_none 0) p (Or.inl rfl)
    rw [hheld'.mem _ (Finset.mem_insert_self _ H)] at hfree
    cases hfree

theorem KernelOk.waitLaws_iff (h : KernelOk initproc s) (htree : TreeOk initproc s.procs cs)
    (hat : s.AtWait p call first)
    (hflag : call.flag = true → ∃ c ∈ cs p, s.procs.Wanted call.pid c) :
    WaitLaws task mem s cs p call first ↔ WaitQuiet task mem s cs p call := by
  by_cases hmeets : s.WaitMeets p call
  · obtain ⟨hrunning, -⟩ := h.waitCalls hat
    obtain ⟨hknown, hst⟩ := htree.running hrunning
    obtain ⟨flag, hscan, -, hmiss⟩ := htree.scanChildren_find hknown call
    rw [WaitQuiet, and_iff_right hmeets]
    have hturn : ∀ {copied}, statusTaken task mem s.procs p call = some copied →
        ∃ r procs locks, s.procs.waitRound p call copied = some (r, procs) ∧
          waitTurn task mem s p call first = some (r, { s with procs, locks }) ∧
          (r ≠ none → ∀ c, c = p ∨ c ∈ s.procs.reached p call.pid →
            (locks.lock (.tcb c)).locked = false) := by
      intro copied htaken
      obtain ⟨r, procs, locks, hrun, hlocks, hreleased⟩ :=
        h.waitRound_locks htree hat hmeets copied
      refine ⟨r, procs, locks, hrun, ?_, hreleased⟩
      rw [waitTurn, hlocks, Option.bind_some, htaken, Option.bind_some, hrun]
      rfl
    cases hfirst : s.procs.firstZombie call.pid (cs p) with
    | none =>
        rw [hfirst] at hscan
        obtain ⟨-, hwanted⟩ := hmiss hfirst
        refine iff_of_true ?_ fun c hc => by cases hc
        have htaken : statusTaken task mem s.procs p call = some true := by
          rw [statusTaken, hscan]
        obtain ⟨r, procs, locks, hrun, hcall, hreleased⟩ := hturn htaken
        obtain ⟨hsame, hends⟩ := waitRound_miss hscan hst hrun
        refine ⟨r, _, hcall, ?_, hreleased⟩
        simp only [WaitOutcome, hfirst]
        refine ⟨hsame, hends.imp (fun ⟨hf, hr⟩ => ⟨fun c hc hw => ?_, hr⟩)
          fun ⟨hf, hr⟩ => ⟨(hwanted.mp hf).elim hflag id, hr⟩⟩
        have htrue := hwanted.mpr (Or.inr ⟨c, hc, hw⟩)
        rw [hf] at htrue
        cases htrue
    | some c =>
        rw [hfirst] at hscan
        obtain ⟨hc, -⟩ := firstZombie_some hfirst
        have hstatus : statusTaken task mem s.procs p call = if call.codeExitAddr = 0 then some true
            else (statusCopy task mem call.codeExitAddr (s.procs.exitCode c <<< 8)).map
              fun n => decide (0 ≤ n) := by
          rw [statusTaken, hscan]
        have hlaws : ∀ r procs locks,
            waitTurn task mem s p call first = some (r, { s with procs, locks }) →
            (r ≠ none → ∀ c, c = p ∨ c ∈ s.procs.reached p call.pid →
              (locks.lock (.tcb c)).locked = false) →
            (WaitLaws task mem s cs p call first ↔
              ReportLaws task mem s.procs cs p call c r procs) := by
          intro r procs locks hcall hreleased
          refine ⟨fun ⟨r', s', hcall', hout, _⟩ => ?_, fun hout => ⟨r, _, hcall, ?_, hreleased⟩⟩
          · obtain ⟨rfl, rfl⟩ := Prod.mk.inj (Option.some.inj (hcall.symm.trans hcall'))
            simpa only [WaitOutcome, hfirst] using hout
          · simpa only [WaitOutcome, hfirst] using hout
        by_cases haddr : call.codeExitAddr = 0
        · rw [if_pos haddr] at hstatus
          obtain ⟨r, procs, locks, hrun, hcall, hreleased⟩ := hturn hstatus
          obtain ⟨hothers, -, hends⟩ := htree.waitRound_hit hc hscan hrun
          rw [hlaws r procs locks hcall hreleased]
          rcases hends with ⟨⟨hne, -⟩, -⟩ | ⟨-, hr, hrep⟩
          · exact absurd haddr hne
          · exact iff_of_true (Or.inl ⟨Or.inl haddr, hr, hrep, hothers⟩)
              fun _ _ hne => absurd haddr hne
        · rw [if_neg haddr] at hstatus
          cases hcopy : statusCopy task mem call.codeExitAddr (s.procs.exitCode c <<< 8) with
          | none =>
              rw [hcopy, Option.map_none] at hstatus
              refine iff_of_false ?_ fun hquiet => ?_
              · rintro ⟨r, s', hcall, -⟩
                obtain ⟨locks, -, hcall⟩ := Option.bind_eq_some_iff.mp hcall
                rw [hstatus] at hcall
                cases hcall
              · obtain ⟨n, hn, -⟩ := hquiet c rfl haddr
                rw [hcopy] at hn
                cases hn
          | some n =>
              rw [hcopy, Option.map_some] at hstatus
              obtain ⟨r, procs, locks, hrun, hcall, hreleased⟩ := hturn hstatus
              obtain ⟨hothers, hself, hends⟩ := htree.waitRound_hit hc hscan hrun
              rw [hlaws r procs locks hcall hreleased]
              rcases hends with ⟨⟨-, hneg⟩, hr, hchild⟩ | ⟨hpos, hr, hrep⟩
              · have hlt : n < 0 := not_le.mp (of_decide_eq_false hneg)
                refine ⟨fun hout => fun c' hc' _ => ?_, fun hquiet => Or.inr ⟨⟨haddr, n, hlt, hcopy⟩,
                  hr, hchild, ?_⟩⟩
                · obtain rfl := Option.some.inj hc'
                  refine ⟨n, hcopy, fun _ => ?_⟩
                  rcases hout with ⟨hzero | ⟨m, hm, heq⟩, -⟩ | ⟨-, -, -, hcodes⟩
                  · exact absurd hzero haddr
                  · rw [hcopy] at heq
                    exact absurd hm (not_le.mpr (Option.some.inj heq ▸ hlt))
                  · exact shiftLeft_eq_self (hself.symm.trans (congrFun hcodes c))
                · obtain ⟨m, hm, hzero⟩ := hquiet c rfl haddr
                  have hcode := hzero (Option.some.inj (hcopy.symm.trans hm) ▸ hlt)
                  funext x
                  by_cases hx : x = c
                  · rw [hx, hself, hcode]
                    rfl
                  · exact hothers x hx
              · have hle : 0 ≤ n := by
                  by_contra hlt
                  exact hpos ⟨haddr, decide_eq_false hlt⟩
                refine iff_of_true (Or.inl ⟨Or.inr ⟨n, hle, hcopy⟩, hr, hrep, hothers⟩)
                  fun c' hc' _ => ?_
                obtain rfl := Option.some.inj hc'
                exact ⟨n, hcopy, fun hlt => absurd hle (not_le.mpr hlt)⟩
  · exact iff_of_false (h.not_waitLaws htree hat hmeets) fun hquiet => hmeets hquiet.1

/-! ### Runs -/

/-- The invariant of a kernel in order, with what its processes wait for. -/
structure WaitsOk (initproc : ι) (s : Kernel ι π) : Prop extends KernelOk initproc s where
  awaits : s.procs.Awaits initproc

/-- A step of the queues and the statuses alone. -/
theorem awaits_of_proc {op : ProcOp ι (WaitQueue π)} (h : s.procs.Awaits initproc)
    (hrun : s.proc initproc op = some s') (hop : op.isSchedule = true) :
    s'.procs.Awaits initproc := by
  obtain ⟨⟨r, procs⟩, hstep, rfl⟩ := Option.map_eq_some_iff.mp hrun
  refine h.step ?_ (fun code closed heq => ?_) (fun c heq => ?_) hstep
  · cases op with
    | waitpid pid addr options copied => cases hop
    | resume copied => cases hop
    | _ => rfl
  · subst heq
    cases hop
  · subst heq
    cases hop

theorem awaits_piperead {i : π} {found : Found} (h : s.procs.Awaits initproc)
    (hrun : s.piperead initproc p i found = some s') : s'.procs.Awaits initproc := by
  rw [Kernel.piperead] at hrun
  split_ifs at hrun
  · obtain rfl := Option.some.inj hrun
    exact h
  · obtain ⟨s₁, hproc, rfl⟩ := Option.map_eq_some_iff.mp hrun
    have h₁ := awaits_of_proc h hproc rfl
    exact h₁
  · obtain ⟨s₁, hproc, rfl⟩ := Option.map_eq_some_iff.mp hrun
    have h₁ := awaits_of_proc h hproc rfl
    exact h₁

theorem awaits_pipewrite {i : π} {found : Found} (h : s.procs.Awaits initproc)
    (hrun : s.pipewrite initproc p i found = some s') : s'.procs.Awaits initproc := by
  rw [Kernel.pipewrite] at hrun
  split_ifs at hrun
  · obtain rfl := Option.some.inj hrun
    exact h
  · obtain ⟨s₁, hwake, hrun⟩ := Option.bind_eq_some_iff.mp hrun
    obtain ⟨s₂, hsleep, rfl⟩ := Option.map_eq_some_iff.mp hrun
    have h₁ := awaits_of_proc h hwake rfl
    have h₂ := awaits_of_proc h₁ hsleep rfl
    exact h₂
  · obtain ⟨s₁, hproc, rfl⟩ := Option.map_eq_some_iff.mp hrun
    have h₁ := awaits_of_proc h hproc rfl
    exact h₁

theorem awaits_consoleread {target n : ℕ} {found : Found} (h : s.procs.Awaits initproc)
    (hrun : s.consoleread initproc p target n found = some s') : s'.procs.Awaits initproc := by
  simp only [Kernel.consoleread] at hrun
  split_ifs at hrun
  · obtain rfl := Option.some.inj hrun
    exact h
  · obtain ⟨s₁, hproc, rfl⟩ := Option.map_eq_some_iff.mp hrun
    have h₁ := awaits_of_proc (s := { s with cons := (s.cons.read found.bytes target n).2.2 })
      h hproc rfl
    exact h₁
  · obtain rfl := Option.some.inj hrun
    exact h

theorem KernelOk.awaits_effect (h : KernelOk initproc s) (hawaits : s.procs.Awaits initproc)
    {op : KernelOp ι π} (hp : s.Permitted op) (heff : s.effect initproc op = some s') :
    s'.procs.Awaits initproc := by
  cases op with
  | dispatch => exact awaits_of_proc hawaits heff rfl
  | suspend =>
      obtain ⟨p, -, heff⟩ := Option.bind_eq_some_iff.mp heff
      exact awaits_of_proc hawaits heff rfl
  | fork c work =>
      obtain ⟨p, -, heff⟩ := Option.bind_eq_some_iff.mp heff
      obtain ⟨⟨r, procs⟩, hstep, rfl⟩ := Option.map_eq_some_iff.mp heff
      refine hawaits.step rfl (fun code closed heq => by cases heq) (fun c' heq => ?_) hstep
      cases heq
      refine ⟨hp.2, ?_⟩
      by_contra hsome
      exact hp.2 (h.known c (Or.inl (Option.isSome_iff_ne_none.mpr hsome)))
  | exit code work =>
      obtain ⟨p, -, heff⟩ := Option.bind_eq_some_iff.mp heff
      obtain ⟨⟨r, procs⟩, hstep, rfl⟩ := Option.map_eq_some_iff.mp heff
      exact hawaits.step rfl (fun code closed _ => h.tree) (fun c heq => by cases heq) hstep
  | waitpid pid addr options found =>
      obtain ⟨p, -, heff⟩ := Option.bind_eq_some_iff.mp heff
      obtain ⟨⟨r, procs⟩, hstep, rfl⟩ := Option.map_eq_some_iff.mp heff
      obtain ⟨cs, htree⟩ := h.tree
      exact hawaits.wait htree rfl hstep
  | pipealloc i =>
      obtain ⟨p, -, heff⟩ := Option.bind_eq_some_iff.mp heff
      simp only [effectOf] at heff
      obtain ⟨s₁, hfirst, hsecond⟩ := Option.bind_eq_some_iff.mp heff
      have h₁ := awaits_of_proc hawaits hfirst rfl
      exact awaits_of_proc h₁ hsecond rfl
  | piperead i found =>
      obtain ⟨p, -, heff⟩ := Option.bind_eq_some_iff.mp heff
      exact awaits_piperead hawaits heff
  | pipewrite i found =>
      obtain ⟨p, -, heff⟩ := Option.bind_eq_some_iff.mp heff
      exact awaits_pipewrite hawaits heff
  | consoleread n found =>
      obtain ⟨p, -, heff⟩ := Option.bind_eq_some_iff.mp heff
      exact awaits_consoleread hawaits heff
  | resume found =>
      obtain ⟨p, -, heff⟩ := Option.bind_eq_some_iff.mp heff
      simp only [effectOf] at heff
      cases hcall : s.procs.call p with
      | some call =>
          rw [hcall] at heff
          obtain ⟨⟨r, procs⟩, hstep, rfl⟩ := Option.map_eq_some_iff.mp heff
          obtain ⟨cs, htree⟩ := h.tree
          exact hawaits.wait htree rfl hstep
      | none =>
          cases hpend : s.pending p with
          | none =>
              rw [hcall, hpend] at heff
              cases heff
          | some pending =>
              rw [hcall, hpend] at heff
              cases pending with
              | piperead i => exact awaits_piperead hawaits heff
              | pipewrite i => exact awaits_pipewrite hawaits heff
              | consoleread target left => exact awaits_consoleread hawaits heff

theorem WaitsOk.step (h : WaitsOk initproc s) {op : KernelOp ι π}
    (hstep : KernelStep initproc s op s') (hmeets : s.Meets initproc op) :
    WaitsOk initproc s' := by
  obtain ⟨s'', hrun, hok⟩ := h.toKernelOk.step hstep.1 hmeets hstep.not_init_exit
  obtain rfl := Option.some.inj (hrun.symm.trans hstep.2)
  obtain ⟨locks, -, heff⟩ := Option.bind_eq_some_iff.mp hrun
  obtain ⟨s₁, hs₁, rfl⟩ := Option.map_eq_some_iff.mp heff
  have hawaits := h.toKernelOk.awaits_effect h.awaits hstep.1 hs₁
  exact ⟨hok, hawaits⟩

/-- Of every state of every run whose turns meet the condition on the locks. -/
theorem waitsOk_of_run {links : Links (Node (TaskQueue (WaitQueue π)) (TaskLink ι))}
    {child : Links (Node ι ι)} {hartid : ℕ} {irq : Bool} {buf : ℕ → Byte} {s₀ : Kernel ι π}
    (hboot : boot initproc links child hartid irq buf = some s₀) {ops : List (KernelOp ι π)}
    (hrun : Run (fun s op s' => KernelStep initproc s op s' ∧ s.Meets initproc op) s₀ ops s) :
    WaitsOk initproc s := by
  refine hrun.invariant (fun _ _ _ hok hstep => hok.step hstep.1 hstep.2) ⟨boot_ok hboot, ?_⟩
  intro t call hcall
  obtain ⟨procs, hinit, rfl⟩ := Option.map_eq_some_iff.mp hboot
  simp only [addInitproc, Option.map_eq_some_iff] at hinit
  obtain ⟨tasks, -, rfl⟩ := hinit
  cases hcall

/-- A turn of `waitpid` is a step of the kernel. -/
theorem kernelStep_of_waitTurn {r : Option (BitVec 64)} (hat : s.AtWait p call first)
    (hturn : waitTurn task mem s p call first = some (r, s')) :
    ∃ op, s.kernelStep initproc op = some s' := by
  obtain ⟨locks, hlocks, hturn⟩ := Option.bind_eq_some_iff.mp hturn
  obtain ⟨copied, -, hturn⟩ := Option.bind_eq_some_iff.mp hturn
  obtain ⟨⟨r, procs⟩, hrun, heq⟩ := Option.map_eq_some_iff.mp hturn
  obtain ⟨-, rfl⟩ := Prod.mk.inj heq
  cases first with
  | true =>
      obtain ⟨hcur, hflag⟩ := hat
      obtain ⟨hpcur, hrunning, -, -⟩ := of_current hcur
      obtain ⟨pid, addr, options, flag⟩ := call
      obtain rfl : flag = false := hflag
      refine ⟨.waitpid pid addr options ⟨copied, false, false, fun _ => false⟩, ?_⟩
      have hcalls : s.calls initproc (.waitpid pid addr options
          ⟨copied, false, false, fun _ => false⟩) = s.waitCalls p ⟨pid, addr, options, false⟩ true := by
        simp only [calls, hrunning, Option.elim_some, callsOf]
        rfl
      rw [kernelStep, hcalls, hlocks, Option.bind_some]
      simp [effect, effectOf, hrunning, Kernel.proc, procStep, hpcur, hrun]
  | false =>
      obtain ⟨hrunning, hcall⟩ := hat
      refine ⟨.resume ⟨copied, false, false, fun _ => false⟩, ?_⟩
      have hcalls : s.calls initproc (.resume ⟨copied, false, false, fun _ => false⟩) =
          s.waitCalls p call false := by
        simp only [calls, hrunning, Option.elim_some, callsOf, hcall, sleepExit, if_true]
        rfl
      rw [kernelStep, hcalls, hlocks, Option.bind_some]
      simp [effect, effectOf, hrunning, hcall, Kernel.proc, procStep, hrun]

/-- A turn of `waitpid` does what is wanted exactly if it meets the condition. -/
theorem waitpid_laws_iff (h : WaitsOk initproc s) (htree : TreeOk initproc s.procs cs)
    (hat : s.AtWait p call first) (task : Mytask) (mem : Memory) :
    WaitLaws task mem s cs p call first ↔ WaitQuiet task mem s cs p call := by
  refine h.toKernelOk.waitLaws_iff htree hat fun hflag => ?_
  cases first with
  | true =>
      rw [hat.2] at hflag
      cases hflag
  | false =>
      obtain ⟨x, hun, hparent, hw⟩ := h.awaits p call hat.2 hflag
      exact ⟨x, (htree.mem p x).mpr ⟨hun, hparent⟩, hw⟩

def bootInit : Option (Kernel Bool Unit) :=
  boot false ⟨fun _ => none, fun _ => none⟩ ⟨fun _ => none, fun _ => none⟩ 0 true fun _ => 0

/-- A child of `INITPROC` exits with the code 3. -/
def exitOfChild : List (KernelOp Bool Unit) :=
  [.dispatch, .fork true ⟨1, 1, false, 3⟩, .suspend, .dispatch, .exit 3 ⟨1, [], .drop⟩, .dispatch]

/-- A task of one page. -/
def onePage : Mytask := ⟨true, 0x1000, 0x80030, 0x80031⟩

/-- A `waitpid` without an address for the status, of a child that has exited. -/
theorem waitpid_laws_exited : ∃ (s : Kernel Bool Unit) (cs : Bool → List Bool),
    s.procs.tasks.status true = .zombie ∧
      WaitLaws onePage (fun _ => 0) s cs false ⟨-1, 0, 0, false⟩ true := by
  obtain ⟨s₀, s, hboot, hrun, hobs⟩ := exists_run_of_execute
    (checkedStep (π := Unit) false (Meets false)) bootInit exitOfChild
    (fun s => (s.procs.tasks.status true, s.current,
      decide (s.WaitMeets false ⟨-1, 0, 0, false⟩))) (.zombie, some false, true) (by decide +kernel)
  simp only [Prod.mk.injEq, decide_eq_true_eq] at hobs
  obtain ⟨hzombie, hcur, hmeets⟩ := hobs
  have hok := waitsOk_of_run hboot (hrun.mono fun _ _ _ => of_checkedStep)
  obtain ⟨cs, htree⟩ := hok.tree
  have hat : s.AtWait false ⟨-1, 0, 0, false⟩ true := ⟨hcur, rfl⟩
  have hquiet : WaitQuiet onePage (fun _ => 0) s cs false ⟨-1, 0, 0, false⟩ :=
    ⟨hmeets, fun c _ hne => absurd rfl hne⟩
  exact ⟨s, cs, hzombie, (waitpid_laws_iff hok htree hat onePage fun _ => 0).mpr hquiet⟩

/-- An address past the end of the task is refused, and the code is shifted all the same; with
the option not to wait, the lock of the caller stays. -/
theorem waitpid_shifts_and_locks :
    (∃ s₀ s s' : Kernel Bool Unit, bootInit = some s₀ ∧ Run (KernelStep false) s₀ exitOfChild s ∧
      waitTurn onePage (fun _ => 0) s false ⟨-1, 0x2000, 0, false⟩ true = some (some (-1), s') ∧
      s.procs.exitCode true = 3 ∧ s'.procs.exitCode true = 0x300) ∧
    ∃ s₀ s s' : Kernel Bool Unit, bootInit = some s₀ ∧
      Run (KernelStep false) s₀ [.dispatch, .fork true ⟨1, 1, false, 3⟩] s ∧
      waitTurn onePage (fun _ => 0) s false ⟨-1, 0, 1, false⟩ true = some (some 0, s') ∧
      (s'.locks.lock (.tcb false)).locked = true := by
  constructor
  · obtain ⟨s₀, s, hboot, hrun, hobs⟩ := exists_run_of_execute
      (checkedStep (π := Unit) false fun _ _ => True) bootInit exitOfChild
      (fun s => (s.procs.exitCode true, (waitTurn onePage (fun _ => 0) s false
        ⟨-1, 0x2000, 0, false⟩ true).map fun x => (x.1, x.2.procs.exitCode true)))
      (3, some (some (-1), 0x300)) (by decide +kernel)
    obtain ⟨hcode, hturn⟩ := Prod.mk.inj hobs
    obtain ⟨⟨r, s'⟩, hturn, hres⟩ := Option.map_eq_some_iff.mp hturn
    obtain ⟨rfl, hshifted⟩ := Prod.mk.inj hres
    exact ⟨s₀, s, s', hboot, hrun.mono fun _ _ _ h => (of_checkedStep h).1, hturn, hcode, hshifted⟩
  · obtain ⟨s₀, s, hboot, hrun, hobs⟩ := exists_run_of_execute
      (checkedStep (π := Unit) false fun _ _ => True) bootInit
      [.dispatch, .fork true ⟨1, 1, false, 3⟩]
      (fun s => (waitTurn onePage (fun _ => 0) s false ⟨-1, 0, 1, false⟩ true).map fun x =>
        (x.1, (x.2.locks.lock (.tcb false)).locked)) (some (some 0, true)) (by decide +kernel)
    obtain ⟨⟨r, s'⟩, hturn, hres⟩ := Option.map_eq_some_iff.mp hobs
    obtain ⟨rfl, hlocked⟩ := Prod.mk.inj hres
    exact ⟨s₀, s, s', hboot, hrun.mono fun _ _ _ h => (of_checkedStep h).1, hturn, hlocked⟩

end Kernel

end K210Os
