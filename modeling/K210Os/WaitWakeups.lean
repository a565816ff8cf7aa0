import K210Os.ProcessTreeRuns

/-!
# Wake-ups of `waitpid`

A process sleeps inside `waitpid` only while none of the children it waits for is a zombie,
as long as no exit hands such a zombie over to a sleeping `INITPROC`: only the parent of the
process that exits is woken.
-/

namespace K210Os

open DoublyLinked Transition

namespace Processes

variable {ι ω : Type*} {initproc p c x q : ι} {s s' : Processes ι ω} {cs : ι → List ι}

/-- A process that has not been reaped, by its parent. -/
def Child (initproc : ι) (s : Processes ι ω) (p c : ι) : Prop :=
  s.Unreaped initproc c ∧ s.parent c = some p

variable [DecidableEq ι] [DecidableEq ω]

/-- Asleep in `sleep_vec` inside `waitpid`. -/
def AsleepIn (s : Processes ι ω) (q : ι) (call : WaitCall) : Prop :=
  s.call q = some call ∧ s.tasks.sleepVecHas q = some true

/-- No child that a sleeping `waitpid` matches is a zombie. -/
def NoneMissed (initproc : ι) (s : Processes ι ω) : Prop :=
  ∀ q call, s.AsleepIn q call → ∀ c, Child initproc s q c → s.Wanted call.pid c →
    s.tasks.status c ≠ .zombie

/-- An exit of a process that is not a child of `INITPROC` hands over no zombie that
`INITPROC` sleeps for. -/
def QuietExit (initproc : ι) (s : Processes ι ω) (op : ProcOp ι ω) : Prop :=
  ∀ code closed p call, op = .exit code closed → s.current = some p →
    s.parent p ≠ some initproc → s.AsleepIn initproc call → ∀ c, Child initproc s p c →
      s.Wanted call.pid c → s.tasks.status c ≠ .zombie

def QuietStep (initproc : ι) (s : Processes ι ω) (l : ProcOp ι ω × Option (BitVec 64))
    (s' : Processes ι ω) : Prop :=
  ProcStep initproc s l s' ∧ QuietExit initproc s l.1

/-- Fewer sleepers, fewer children and no new zombies. -/
theorem NoneMissed.mono (h : NoneMissed initproc s)
    (hs : ∀ q call, s'.AsleepIn q call → s.AsleepIn q call)
    (hc : ∀ q c, Child initproc s' q c → Child initproc s q c) (hpid : s'.pid = s.pid)
    (hz : ∀ c, s'.tasks.status c = .zombie → s.tasks.status c = .zombie) :
    NoneMissed initproc s' := by
  intro q call hasleep c hchild hw hzombie
  simp only [Wanted, hpid] at hw
  exact h q call (hs q call hasleep) c (hc q c hchild) hw (hz c hzombie)

theorem NoneMissed.schedule (h : NoneMissed initproc s) {tasks : Tasks ι ω}
    (hz : Tasks.SameZombies s.tasks tasks) (hn : Tasks.NoNewSleepers s.tasks tasks) :
    NoneMissed initproc { s with tasks } := by
  refine h.mono (fun q call ⟨hcall, hv⟩ => ⟨hcall, hn q hv⟩) (fun q c hc => ?_) rfl
    fun c => (hz.2 c).mp
  simpa only [Child, Unreaped, Reaped, hz.1] using hc

theorem NoneMissed.fork (h : NoneMissed initproc s) (hok : TreeOk initproc s cs)
    (hc : c ∉ s.tasks.known) {pid : BitVec 64} (hfork : s.fork p c = some (pid, s')) :
    NoneMissed initproc s' := by
  obtain ⟨tasks, hadd, -, -, hk, hz, hn⟩ := hok.tasks.add hc
  obtain ⟨place, hq⟩ := hok.tasks.1
  have hnew := hq.ne_zombie_of_new hc
  simp only [Processes.fork, hadd, Option.bind_eq_some_iff, Option.map_some, Option.some.injEq,
    Prod.mk.injEq] at hfork
  obtain ⟨child, -, -, rfl⟩ := hfork
  rintro q call ⟨hcall, hv⟩ x ⟨⟨hknown, hne, hreaped⟩, hpar⟩ hw hzombie
  rw [hz] at hzombie
  have hxc : x ≠ c := by
    rintro rfl
    exact hnew hzombie
  have hqc : q ≠ c := by
    rintro rfl
    simp at hcall
  simp only [Function.update_of_ne hqc] at hcall
  simp only [Function.update_of_ne hxc] at hpar
  simp only [Wanted, Function.update_of_ne hxc] at hw
  have hold : x ∈ s.tasks.known := by
    rw [hk, List.mem_cons] at hknown
    exact hknown.resolve_left hxc
  exact h q call ⟨hcall, hn q hv⟩ x ⟨⟨hold, hne, hreaped⟩, hpar⟩ hw hzombie

theorem NoneMissed.exit (h : NoneMissed initproc s) (hok : TreeOk initproc s cs)
    (hcur : s.current = some p) {code : BitVec 32} {closed : List (TaskQueue ω)}
    (hclosed : ∀ q ∈ closed, q.isWait = true ∧ s.tasks.live q = true)
    (hquiet : QuietExit initproc s (.exit code closed))
    (hexit : exitCurrentAndRunNext initproc s p code closed = some s') :
    NoneMissed initproc s' := by
  have hp := running_of_current hcur
  obtain ⟨hknown, -⟩ := hok.running hp
  have hlen := hok.length_le p
  have hne : p ≠ initproc := by
    rintro rfl
    simp [exitCurrentAndRunNext] at hexit
  have h₀ : TreeOk initproc { s with exitCode := Function.update s.exitCode p code } cs :=
    hok.of_fields rfl rfl rfl rfl
  obtain ⟨s₁, cs₁, hadopt, -, -, ht, hr, hcall₁, hpid₁, hpar₁⟩ := h₀.adopt hne hknown (by omega :
    (cs p).length < s.tasks.known.length + 1)
  simp only [exitCurrentAndRunNext, if_neg hne, hadopt, Option.bind_some,
    Option.bind_eq_some_iff] at hexit
  obtain ⟨parent, hparent, hexit⟩ := hexit
  obtain ⟨tasks, hrun, -, hk, hz, hn, hawake⟩ := hok.tasks.exit hp parent closed hclosed
  rw [ht, hrun, Option.map_some, Option.some.injEq] at hexit
  subst hexit
  have hpp : s.parent p = some parent := by
    apply (hpar₁ p parent hparent).resolve_right
    rintro ⟨-, hself⟩
    exact hok.self p hself
  rintro q call ⟨hcall, hv⟩ x ⟨⟨hx, hroot, hreaped⟩, hpar⟩ hw hzombie
  -- the parent of the process that exits is awake now
  have hqp : q ≠ parent := by
    rintro rfl
    exact hawake hv
  simp only [hcall₁] at hcall
  simp only [Wanted, hpid₁] at hw
  simp only [Reaped, hr] at hreaped
  rw [hk] at hx
  have hun : s.Unreaped initproc x := ⟨hx, hroot, hreaped⟩
  have hxp : x ≠ p := by
    rintro rfl
    rw [hparent, Option.some.injEq] at hpar
    exact hqp hpar.symm
  have hdead : s.tasks.status x = .zombie := ((hz x).mp hzombie).resolve_left hxp
  rcases hpar₁ x q hpar with hold | ⟨rfl, hold⟩
  · exact h q call ⟨hcall, hn q hv⟩ x ⟨hun, hold⟩ hw hdead
  · refine hquiet code closed p call rfl hcur ?_ ⟨hcall, hn q hv⟩ x ⟨hun, hold⟩ hw hdead
    rw [hpp]
    exact fun heq => hqp (Option.some.inj heq).symm

theorem NoneMissed.waitRound (h : NoneMissed initproc s) (hok : TreeOk initproc s cs)
    (hp : s.tasks.running = some p) {call : WaitCall} {copied : Bool} {r : Option (BitVec 64)}
    (hround : s.waitRound p call copied = some (r, s')) : NoneMissed initproc s' := by
  obtain ⟨hknown, -⟩ := hok.running hp
  obtain ⟨found, flag, hscan, -, hnone⟩ := hok.scanChildren hknown call
  simp only [Processes.waitRound, hscan, Option.bind_some] at hround
  have hcalls : ∀ (q : ι) (k : WaitCall), Function.update s.call p none q = some k →
      s.call q = some k := by
    intro q k hk
    by_cases hqp : q = p
    · simp [hqp] at hk
    · rwa [Function.update_of_ne hqp] at hk
  have hdone : ∀ {s'' : Processes ι ω}, s''.tasks = s.tasks →
      s''.call = Function.update s.call p none → s''.pid = s.pid → s''.parent = s.parent →
      (∀ y, y ∈ s.reaped → y ∈ s''.reaped) → NoneMissed initproc s'' := by
    intro s'' ht hc hpid hpar hreap
    refine h.mono (fun q k hk => ⟨hcalls q k (hc ▸ hk.1), ht ▸ hk.2⟩) (fun q x hx => ?_) hpid
      fun x hx => ht ▸ hx
    obtain ⟨⟨hkx, hroot, hx⟩, hpx⟩ := hx
    rw [ht] at hkx
    rw [hpar] at hpx
    refine ⟨⟨hkx, hroot, fun hr => hx ?_⟩, hpx⟩
    obtain ⟨y, hy, rfl⟩ := List.mem_map.mp hr
    exact List.mem_map_of_mem (hreap y hy)
  cases found with
  | some y =>
      simp only [report] at hround
      split at hround
      · simp only [Option.map_some, Option.some.injEq, Prod.mk.injEq] at hround
        obtain ⟨-, rfl⟩ := hround
        exact hdone rfl rfl rfl rfl fun _ hy => hy
      · simp only [Option.map_eq_some_iff, Prod.mk.injEq] at hround
        obtain ⟨⟨pid, s''⟩, ⟨child, -, -, rfl⟩, -, rfl⟩ := hround
        exact hdone rfl rfl rfl rfl fun _ hy => List.mem_cons_of_mem _ hy
  | none =>
      simp only at hround
      split at hround
      · simp only [Option.some.injEq, Prod.mk.injEq] at hround
        obtain ⟨-, rfl⟩ := hround
        exact hdone rfl rfl rfl rfl fun _ hy => hy
      · split at hround
        · obtain ⟨place, hq⟩ := hok.tasks.1
          obtain ⟨tasks, hrun, -, hz, hsv⟩ := hok.tasks.sleep hp (q := .sleepVec)
            ⟨rfl, hq.boot.2.1⟩
          rw [hrun, Option.map_some, Option.some.injEq, Prod.mk.injEq] at hround
          obtain ⟨-, rfl⟩ := hround
          rintro q k ⟨hk, hv⟩ x ⟨hx, hpx⟩ hw hzombie
          simp only [Unreaped, Reaped, hz.1] at hx
          rw [hz.2] at hzombie
          by_cases hqp : q = p
          · -- the list was searched just now
            subst hqp
            simp only [Function.update_self, Option.some.injEq] at hk
            subst hk
            exact hnone rfl x ((hok.mem q x).mpr ⟨hx, hpx⟩) hw hzombie
          · simp only [Function.update_of_ne hqp] at hk
            have hold := (hsv q hv).resolve_right fun heq => hqp heq.1
            exact h q k ⟨hk, hold⟩ x ⟨hx, hpx⟩ hw hzombie
        · simp only [Option.some.injEq, Prod.mk.injEq] at hround
          obtain ⟨-, rfl⟩ := hround
          exact hdone rfl rfl rfl rfl fun _ hy => hy

theorem NoneMissed.step (h : NoneMissed initproc s) (hok : TreeOk initproc s cs)
    {l : ProcOp ι ω × Option (BitVec 64)} (hstep : QuietStep initproc s l s') :
    NoneMissed initproc s' := by
  obtain ⟨⟨hp, hstep⟩, hquiet⟩ := hstep
  obtain ⟨op, r⟩ := l
  have hsched : ∀ {tasks' : Option (Tasks ι ω)}, s.schedule tasks' = some (r, s') →
      (∃ tasks, tasks' = some tasks ∧ Tasks.SameZombies s.tasks tasks ∧
        Tasks.NoNewSleepers s.tasks tasks) → NoneMissed initproc s' := by
    rintro _ hrun ⟨tasks, rfl, hz, hn⟩
    simp only [Processes.schedule, Option.map_some, Option.some.injEq, Prod.mk.injEq] at hrun
    rw [← hrun.2]
    exact h.schedule hz hn
  cases op with
  | init w =>
      obtain ⟨-, hz, hn⟩ := hok.tasks.init hp
      exact hsched hstep ⟨_, rfl, hz, hn⟩
  | dispatch =>
      obtain ⟨tasks, hrun, -, hz, hn⟩ := hok.tasks.run hp
      exact hsched hstep ⟨tasks, hrun, hz, hn⟩
  | suspend =>
      obtain ⟨p, hcur⟩ := Option.isSome_iff_exists.mp hp
      obtain ⟨tasks, hrun, -, hz, hn⟩ := hok.tasks.suspend (running_of_current hcur)
      simp only [procStep, hcur, Option.bind_some] at hstep
      exact hsched hstep ⟨tasks, hrun, hz, hn⟩
  | sleep w =>
      obtain ⟨p, hcur⟩ := Option.isSome_iff_exists.mp hp.1
      obtain ⟨tasks, hrun, -, hz, hsv⟩ := hok.tasks.sleep (running_of_current hcur) ⟨rfl, hp.2⟩
      simp only [procStep, hcur, Option.bind_some] at hstep
      exact hsched hstep ⟨tasks, hrun, hz, fun t ht =>
        (hsv t ht).resolve_right fun heq => by cases heq.2⟩
  | wakeupFromwq w =>
      obtain ⟨tasks, hrun, -, -, hz, hn⟩ := hok.tasks.wakeupFromwq rfl hp
      exact hsched hstep ⟨tasks, hrun, hz, hn⟩
  | fork c =>
      obtain ⟨p, hcur⟩ := Option.isSome_iff_exists.mp hp.1
      simp only [procStep, hcur, Option.bind_some, Option.map_eq_some_iff, Prod.mk.injEq] at hstep
      obtain ⟨⟨pid, s''⟩, hfork, -, rfl⟩ := hstep
      exact h.fork hok hp.2 hfork
  | exit code closed =>
      obtain ⟨p, hcur⟩ := Option.isSome_iff_exists.mp hp.1
      simp only [procStep, hcur, Option.bind_some, Option.map_eq_some_iff, Prod.mk.injEq] at hstep
      obtain ⟨s'', hexit, -, rfl⟩ := hstep
      exact h.exit hok hcur hp.2 hquiet hexit
  | waitpid pid addr options copied =>
      obtain ⟨p, hcur⟩ := Option.isSome_iff_exists.mp hp
      simp only [procStep, hcur, Option.bind_some] at hstep
      exact h.waitRound hok (running_of_current hcur) hstep
  | resume copied =>
      obtain ⟨p, call, hrunning, hcall⟩ := hp
      simp only [procStep, hrunning, hcall, Option.bind_some] at hstep
      exact h.waitRound hok hrunning hstep

/-- In every state of every run that starts from `INITPROC` alone and whose exits are quiet. -/
theorem noneMissed_of_run {links : Links (Node (TaskQueue ω) (TaskLink ι))}
    {child : Links (Node ι ι)} {s₀ : Processes ι ω}
    (hinit : addInitproc initproc links child = some s₀)
    {ls : List (ProcOp ι ω × Option (BitVec 64))} (hrun : Run (QuietStep initproc) s₀ ls s) :
    NoneMissed initproc s := by
  obtain ⟨s₁, hinit₁, hok₁⟩ := addInitproc_ok initproc links child
  obtain rfl := Option.some.inj (hinit₁.symm.trans hinit)
  have hnone : NoneMissed initproc s₁ := by
    rintro q call - c ⟨hun, hpar⟩ -
    exact absurd ((hok₁.mem q c).mpr ⟨hun, hpar⟩) (by simp)
  obtain ⟨⟨cs, -⟩, h⟩ := hrun.invariant
    (I := fun s => (∃ cs, TreeOk initproc s cs) ∧ NoneMissed initproc s)
    (fun _ _ _ ⟨⟨_, hok⟩, h⟩ hstep => ⟨(hok.of_step hstep.1).1, h.step hok hstep⟩)
    ⟨⟨_, hok₁⟩, hnone⟩
  exact h

instance (s : Processes ι ω) : (op : ProcOp ι ω) → Decidable (s.Permitted op)
  | .init _ => inferInstanceAs (Decidable (_ = _))
  | .dispatch => decidable_of_iff (s.tasks.running.isNone = true) Option.isNone_iff_eq_none
  | .suspend => inferInstanceAs (Decidable (_ = _))
  | .sleep _ => inferInstanceAs (Decidable (_ ∧ _))
  | .wakeupFromwq _ => inferInstanceAs (Decidable (_ = _))
  | .fork _ => inferInstanceAs (Decidable (_ ∧ _))
  | .exit _ _ => inferInstanceAs (Decidable (_ ∧ _))
  | .waitpid .. => inferInstanceAs (Decidable (_ = _))
  | .resume _ => decidable_of_iff ((s.tasks.running.bind s.call).isSome = true) (by
      simp only [Option.isSome_iff_exists, Option.bind_eq_some_iff]
      exact ⟨fun ⟨call, p, hp, hc⟩ => ⟨p, call, hp, hc⟩, fun ⟨p, call, hp, hc⟩ => ⟨call, p, hp, hc⟩⟩)

/-- A step that delivers what its label says, computed. -/
def procExec (initproc : ι) (s : Processes ι ω) (l : ProcOp ι ω × Option (BitVec 64)) :
    Option (Processes ι ω) :=
  if s.Permitted l.1 then
    (procStep initproc s l.1).bind fun (r, s') => if r = l.2 then some s' else none
  else none

theorem procStep_of_exec {l : ProcOp ι ω × Option (BitVec 64)}
    (h : procExec initproc s l = some s') : ProcStep initproc s l s' := by
  simp only [procExec, Option.ite_none_right_eq_some, Option.bind_eq_some_iff] at h
  obtain ⟨hp, ⟨r, s''⟩, hstep, rfl, hs⟩ := h
  rw [Option.some.injEq] at hs
  exact ⟨hp, hs ▸ hstep⟩

/-- A step whose exits are by children of `INITPROC`, computed. -/
def quietExec (initproc : ι) (s : Processes ι ω) (l : ProcOp ι ω × Option (BitVec 64)) :
    Option (Processes ι ω) :=
  match l.1 with
  | .exit _ _ => if s.current.bind s.parent = some initproc then procExec initproc s l else none
  | _ => procExec initproc s l

theorem quietStep_of_exec {l : ProcOp ι ω × Option (BitVec 64)}
    (h : quietExec initproc s l = some s') : QuietStep initproc s l s' := by
  obtain ⟨op, r⟩ := l
  cases op with
  | exit code closed =>
      simp only [quietExec, Option.ite_none_right_eq_some] at h
      refine ⟨procStep_of_exec h.2, fun _ _ p _ _ hcur hpar => absurd ?_ hpar⟩
      simpa [hcur] using h.1
  | _ => exact ⟨procStep_of_exec h, fun code closed _ _ heq => by cases heq⟩

/-- `INITPROC` forks and waits, and its child exits. -/
theorem noneMissed_child_exits :
    ∃ s₀ s, addInitproc false ⟨fun _ => none, fun _ => none⟩ ⟨fun _ => none, fun _ => none⟩ =
        some (s₀ : Processes Bool Empty) ∧
      Run (QuietStep false) s₀
        [(.dispatch, none), (.fork true, some 2), (.waitpid (-1) 0 0 true, none),
          (.dispatch, none), (.exit 7 [], none)] s ∧
      NoneMissed false s := by
  obtain ⟨s₀, s, hinit, hrun, -⟩ := exists_run_of_execute (quietExec false)
    (addInitproc false ⟨fun _ => none, fun _ => none⟩ ⟨fun _ => none, fun _ => none⟩ :
      Option (Processes Bool Empty))
    [(.dispatch, none), (.fork true, some 2), (.waitpid (-1) 0 0 true, none),
      (.dispatch, none), (.exit 7 [], none)]
    (fun s => s.tasks.running) none (by decide +kernel)
  have hquiet := hrun.mono fun _ _ _ => quietStep_of_exec
  exact ⟨s₀, s, hinit, hquiet, noneMissed_of_run hinit hquiet⟩

/-- Four generations: while `INITPROC` sleeps for any child, its great-grandchild exits and
then its grandchild, which wakes the child only. The great-grandchild is a zombie of the
sleeping `INITPROC` now. -/
theorem adopted_zombie_missed :
    ∃ s₀ s, addInitproc 0 ⟨fun _ => none, fun _ => none⟩ ⟨fun _ => none, fun _ => none⟩ =
        some (s₀ : Processes (Fin 4) Empty) ∧
      Run (ProcStep 0) s₀
        [(.dispatch, none), (.fork 1, some 2), (.waitpid (-1) 0 0 true, none),
          (.dispatch, none), (.fork 2, some 3), (.suspend, none),
          (.dispatch, none), (.fork 3, some 4), (.suspend, none),
          (.dispatch, none), (.suspend, none), (.dispatch, none), (.exit 0 [], none),
          (.dispatch, none), (.exit 0 [], none)] s ∧
      ¬ NoneMissed 0 s := by
  obtain ⟨s₀, s, hinit, hrun, hobs⟩ := exists_run_of_execute (procExec 0)
    (addInitproc 0 ⟨fun _ => none, fun _ => none⟩ ⟨fun _ => none, fun _ => none⟩ :
      Option (Processes (Fin 4) Empty))
    [(.dispatch, none), (.fork 1, some 2), (.waitpid (-1) 0 0 true, none),
      (.dispatch, none), (.fork 2, some 3), (.suspend, none),
      (.dispatch, none), (.fork 3, some 4), (.suspend, none),
      (.dispatch, none), (.suspend, none), (.dispatch, none), (.exit 0 [], none),
      (.dispatch, none), (.exit 0 [], none)]
    (fun s => decide ((s.call 0).map (·.pid) = some (-1) ∧ s.tasks.sleepVecHas 0 = some true ∧
      s.tasks.known = [3, 2, 1, 0] ∧ s.reaped = [] ∧ s.parent 3 = some 0 ∧
      s.tasks.status 3 = .zombie)) true (by decide +kernel)
  obtain ⟨hpid, hv, hk, hreaped, hpar, hz⟩ := of_decide_eq_true hobs
  obtain ⟨call, hcall, hpid⟩ := Option.map_eq_some_iff.mp hpid
  refine ⟨s₀, s, hinit, hrun.mono fun _ _ _ => procStep_of_exec, fun h => ?_⟩
  refine h 0 call ⟨hcall, hv⟩ 3 ⟨⟨?_, by decide, ?_⟩, hpar⟩ (.inl hpid) hz
  · simp [hk]
  · simp [Reaped, hreaped]

end Processes

end K210Os
