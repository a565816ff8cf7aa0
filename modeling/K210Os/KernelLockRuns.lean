import K210Os.KernelLocks
import K210Os.ProcessTreeRuns

/-!
# When no lock call fails

Every section but those under a `tcb_lock` takes its locks along the levels of `level`.
Between turns only the locks of tasks inside `sleep` are held, so that a turn fails where
it comes to one of these: at a child inside `sleep` that `waitpid` scans, and at
`INITPROC` inside `sleep` when a task exits. `consoleread` gives up a lock that it never
took, and `waitpid` that finds nothing returns with its lock where it does not wait.
-/

namespace K210Os

open DoublyLinked Transition

/-! ## What the scheduler keeps -/

namespace Tasks

variable {ι ω : Type*} {s s' : Tasks ι ω} {t : ι} {q : TaskQueue ω}

/-- The same queues are live and the same tasks known. -/
def SameMade (s s' : Tasks ι ω) : Prop := s'.live = s.live ∧ s'.known = s.known

theorem SameMade.trans {s₁ s₂ s₃ : Tasks ι ω} (h : SameMade s₁ s₂) (k : SameMade s₂ s₃) :
    SameMade s₁ s₃ := ⟨k.1.trans h.1, k.2.trans h.2⟩

variable [DecidableEq ι] [DecidableEq ω]

theorem sameMade_taskAdd (h : s.taskAdd t = some s') : SameMade s s' := by
  simp only [taskAdd, Option.map_eq_some_iff] at h
  obtain ⟨L, -, rfl⟩ := h
  exact ⟨rfl, rfl⟩

theorem sameMade_popTag (h : s.popTag q = some (t, s')) : SameMade s s' := by
  rw [popTag] at h
  split at h
  · obtain ⟨-, rfl⟩ := Prod.mk.inj (Option.some.inj h)
    exact ⟨rfl, rfl⟩
  · cases h

theorem sameMade_run (h : s.run = some s') : SameMade s s' := by
  simp only [run, Option.bind_eq_bind, Option.bind_eq_some_iff] at h
  obtain ⟨⟨task, s₁⟩, hfetch, s₂, hrefill, hlast⟩ := h
  have h₁ : SameMade s s₁ := by
    rw [taskFetch] at hfetch
    split at hfetch
    · obtain ⟨-, rfl⟩ := Prod.mk.inj (Option.some.inj hfetch)
      exact ⟨rfl, rfl⟩
    · simp only [Option.map_eq_some_iff] at hfetch
      obtain ⟨⟨u, s₁'⟩, hpop, heq⟩ := hfetch
      obtain ⟨-, rfl⟩ := Prod.mk.inj heq
      exact sameMade_popTag hpop
  have h₂ : SameMade s₁ s₂ := by
    rw [refill] at hrefill
    split at hrefill
    · split at hrefill
      · simp only [Option.map_eq_some_iff] at hrefill
        obtain ⟨L, -, rfl⟩ := hrefill
        exact ⟨rfl, rfl⟩
      · cases hrefill
    · obtain rfl := Option.some.inj hrefill
      exact ⟨rfl, rfl⟩
  have h₃ : SameMade s₂ s' := by
    cases task with
    | none =>
        obtain rfl := Option.some.inj hlast
        exact ⟨rfl, rfl⟩
    | some u =>
        obtain rfl := Option.some.inj hlast
        exact ⟨rfl, rfl⟩
  exact (h₁.trans h₂).trans h₃

theorem sameMade_suspend (h : s.suspendCurrentAndRunNext t = some s') : SameMade s s' := by
  simp only [suspendCurrentAndRunNext, Option.map_eq_some_iff] at h
  obtain ⟨s₁, hadd, rfl⟩ := h
  have h₁ : SameMade (s.setStatus t .ready) s₁ := sameMade_taskAdd hadd
  exact h₁

theorem sameMade_sleep (h : s.sleep t q = some s') : SameMade s s' := by
  rw [Tasks.sleep] at h
  split at h
  · cases h
  · simp only [Option.map_eq_some_iff] at h
    obtain ⟨L, -, rfl⟩ := h
    exact ⟨rfl, rfl⟩

theorem sameMade_wakeupFromwq (h : s.wakeupFromwq q = some s') : SameMade s s' := by
  rw [wakeupFromwq] at h
  split at h
  · obtain rfl := Option.some.inj h
    exact ⟨rfl, rfl⟩
  · simp only [Option.bind_eq_bind, Option.bind_eq_some_iff] at h
    obtain ⟨⟨u, s₁⟩, hpop, h⟩ := h
    split at h
    · cases h
    · exact (sameMade_popTag hpop).trans (sameMade_taskAdd (s := s₁.setStatus u .ready) h)

theorem sameMade_wakeupFromsv (h : s.wakeupFromsv t = some s') : SameMade s s' := by
  rw [wakeupFromsv] at h
  split at h
  · cases h
  · obtain rfl := Option.some.inj h
    exact ⟨rfl, rfl⟩
  · simp only [Option.bind_eq_some_iff] at h
    obtain ⟨L, -, h⟩ := h
    exact sameMade_taskAdd (s := { s with links := L }.setStatus t .ready) h

theorem sameMade_exit {parent : ι} {closed : List (TaskQueue ω)}
    (h : s.exitCurrentAndRunNext t parent closed = some s') : SameMade s s' := by
  simp only [exitCurrentAndRunNext, Option.bind_eq_bind, Option.bind_eq_some_iff] at h
  obtain ⟨s₁, hclosed, s₂, hwake, hlast⟩ := h
  obtain rfl := Option.some.inj hlast
  have hfold : ∀ (l : List (TaskQueue ω)) {a b : Tasks ι ω},
      l.foldlM wakeupFromwq a = some b → SameMade a b := by
    intro l
    induction l with
    | nil =>
        intro a b hab
        obtain rfl := Option.some.inj hab
        exact ⟨rfl, rfl⟩
    | cons q l ih =>
        intro a b hab
        simp only [List.foldlM_cons, Option.bind_eq_bind, Option.bind_eq_some_iff] at hab
        obtain ⟨c, hc, hab⟩ := hab
        exact (sameMade_wakeupFromwq hc).trans (ih hab)
  have h₁ : SameMade s s₁ := hfold closed (a := s.setStatus t .zombie) hclosed
  exact (h₁.trans (sameMade_wakeupFromsv hwake) : SameMade s s₂)

end Tasks

/-! ## What a process step keeps -/

namespace Processes

variable {ι ω : Type*} [DecidableEq ι] [DecidableEq ω] {s s' : Processes ι ω} {initproc p : ι}

/-- Queues stay live and tasks known. -/
structure Grows (s s' : Processes ι ω) : Prop where
  live : ∀ q, s.tasks.live q = true → s'.tasks.live q = true
  known : ∀ t, t ∈ s.tasks.known → t ∈ s'.tasks.known

omit [DecidableEq ι] [DecidableEq ω] in
theorem Grows.of_sameMade (h : Tasks.SameMade s.tasks s'.tasks) : Grows s s' :=
  ⟨fun q hq => by rwa [h.1], fun t ht => by rwa [h.2]⟩

omit [DecidableEq ω] in
theorem adopt_keeps {fuel : ℕ} (h : adopt initproc p fuel s = some s') :
    s'.tasks = s.tasks ∧ s'.call = s.call := by
  induction fuel generalizing s with
  | zero => cases h
  | succ fuel ih =>
      rw [adopt] at h
      split at h
      · obtain rfl := Option.some.inj h
        exact ⟨rfl, rfl⟩
      · simp only [Option.bind_eq_some_iff] at h
        obtain ⟨_, -, _, -, h⟩ := h
        obtain ⟨htasks, hcall⟩ := ih h
        exact ⟨htasks, hcall⟩

/-- A process calls `waitpid` again where it went to sleep in it, and only there. -/
theorem waitRound_keeps {call : WaitCall} {copied : Bool} {r : Option (BitVec 64)}
    (h : s.waitRound p call copied = some (r, s')) :
    Grows s s' ∧ ∃ c : Option WaitCall, s'.call = Function.update s.call p c ∧
      (c.isSome = true ↔ r = none) := by
  simp only [waitRound, Option.bind_eq_some_iff] at h
  obtain ⟨⟨found, flag⟩, -, h⟩ := h
  have hsame : ∀ t : Processes ι ω, t.tasks = s.tasks → Grows s t := fun t ht =>
    .of_sameMade ⟨by rw [ht], by rw [ht]⟩
  cases found with
  | some x =>
      simp only [report, Option.map_eq_some_iff] at h
      obtain ⟨⟨pid, s₁⟩, hreport, heq⟩ := h
      obtain ⟨rfl, rfl⟩ := Prod.mk.inj heq
      split at hreport
      · obtain ⟨-, rfl⟩ := Prod.mk.inj (Option.some.inj hreport)
        exact ⟨hsame _ rfl, none, rfl, by simp⟩
      · simp only [Option.map_eq_some_iff] at hreport
        obtain ⟨L, -, heq⟩ := hreport
        obtain ⟨-, rfl⟩ := Prod.mk.inj heq
        exact ⟨hsame _ rfl, none, rfl, by simp⟩
  | none =>
      simp only at h
      split at h
      · obtain ⟨rfl, rfl⟩ := Prod.mk.inj (Option.some.inj h)
        exact ⟨hsame _ rfl, none, rfl, by simp⟩
      · split at h
        · simp only [Option.map_eq_some_iff] at h
          obtain ⟨tasks, hsleep, heq⟩ := h
          obtain ⟨rfl, rfl⟩ := Prod.mk.inj heq
          exact ⟨.of_sameMade (Tasks.sameMade_sleep hsleep), _, rfl, by simp⟩
        · obtain ⟨rfl, rfl⟩ := Prod.mk.inj (Option.some.inj h)
          exact ⟨hsame _ rfl, none, rfl, by simp⟩

omit [DecidableEq ι] [DecidableEq ω] in
theorem schedule_keeps {tasks : Option (Tasks ι ω)} {r : Option (BitVec 64)}
    (h : s.schedule tasks = some (r, s'))
    (hkeep : ∀ t, tasks = some t → Tasks.SameMade s.tasks t) : Grows s s' ∧ s'.call = s.call := by
  simp only [schedule, Option.map_eq_some_iff] at h
  obtain ⟨t, ht, heq⟩ := h
  obtain ⟨-, rfl⟩ := Prod.mk.inj heq
  exact ⟨.of_sameMade (hkeep t ht), rfl⟩

/-- Outside `waitpid` only the call of a new process is reset. -/
theorem procStep_keeps {op : ProcOp ι ω} {r : Option (BitVec 64)}
    (h : procStep initproc s op = some (r, s')) (hop : op.isWaitpid = false)
    (hnew : ∀ c, op = .fork c → s.call c = none) : Grows s s' ∧ s'.call = s.call := by
  cases op with
  | init w =>
      simp only [procStep, schedule, Option.map_some, Option.some.injEq, Prod.mk.injEq] at h
      obtain ⟨-, rfl⟩ := h
      refine ⟨⟨fun q hq => ?_, fun t ht => ht⟩, rfl⟩
      by_cases hqw : q = .other w
      · simp [Tasks.listInit, hqw]
      · simpa [Tasks.listInit, hqw] using hq
  | dispatch => exact schedule_keeps h fun _ => Tasks.sameMade_run
  | suspend =>
      simp only [procStep, Option.bind_eq_some_iff] at h
      obtain ⟨p, -, h⟩ := h
      exact schedule_keeps h fun _ => Tasks.sameMade_suspend
  | sleep w =>
      simp only [procStep, Option.bind_eq_some_iff] at h
      obtain ⟨p, -, h⟩ := h
      exact schedule_keeps h fun _ => Tasks.sameMade_sleep
  | wakeupFromwq w => exact schedule_keeps h fun _ => Tasks.sameMade_wakeupFromwq
  | fork c =>
      simp only [procStep, Option.bind_eq_some_iff, Option.map_eq_some_iff] at h
      obtain ⟨p, -, ⟨pid, s₁⟩, hfork, heq⟩ := h
      obtain ⟨-, rfl⟩ := Prod.mk.inj heq
      simp only [fork, Option.bind_eq_some_iff, Option.map_eq_some_iff] at hfork
      obtain ⟨L, -, tasks, hadd, heq⟩ := hfork
      obtain ⟨-, rfl⟩ := Prod.mk.inj heq
      have hmade := Tasks.sameMade_taskAdd hadd
      refine ⟨⟨fun q hq => ?_, fun t ht => ?_⟩, ?_⟩
      · rw [hmade.1]
        exact hq
      · rw [hmade.2]
        exact List.mem_cons_of_mem _ ht
      · simp [← hnew c rfl]
  | exit exitCode closed =>
      simp only [procStep, Option.bind_eq_some_iff, Option.map_eq_some_iff] at h
      obtain ⟨p, -, s₁, hexit, heq⟩ := h
      obtain ⟨-, rfl⟩ := Prod.mk.inj heq
      rw [exitCurrentAndRunNext] at hexit
      split at hexit
      · cases hexit
      · simp only [Option.bind_eq_some_iff, Option.map_eq_some_iff] at hexit
        obtain ⟨s₂, hadopt, parent, -, tasks, hrun, rfl⟩ := hexit
        obtain ⟨htasks, hcall⟩ := adopt_keeps hadopt
        have hmade := Tasks.sameMade_exit hrun
        rw [htasks] at hmade
        exact ⟨.of_sameMade hmade, hcall⟩
  | waitpid pid codeExitAddr options copied => cases hop
  | resume copied => cases hop

end Processes

/-! ## The levels -/

namespace Locking

variable {ι π : Type*}

def level : KernelLock ι π → ℕ
  | .tcb _ => 3
  | .pipe _ => 2
  | .cons => 2
  | .taskManager => 1
  | .ecache => 1
  | _ => 0

variable [DecidableEq ι] [DecidableEq π] {s : Tasks ι (WaitQueue π)}

/-- A lock that is taken and given back at once. -/
theorem below_single {n : ℕ} (lk : KernelLock ι π) (h : level lk < n) :
    Below level n (locked lk []) := Below.nil.locked h

theorem below_listOp (q : TaskQueue (WaitQueue π)) :
    Below level 1 (listOp q : List (LockCall (KernelLock ι π))) :=
  below_single _ (by simp [level])

theorem below_taskAdd : Below level 2 (taskAdd : List (LockCall (KernelLock ι π))) :=
  (below_listOp .ready).locked (by simp [level])

theorem below_wakeupFromwq (q : TaskQueue (WaitQueue π)) : Below level 2 (wakeupFromwq s q) := by
  rw [wakeupFromwq]
  split
  · exact Below.nil
  · exact ((below_listOp q).mono (by simp)).append below_taskAdd

theorem below_wakeupFromsv (t : ι) : Below level 2 (wakeupFromsv s t) := by
  rw [wakeupFromsv]
  split
  · exact below_taskAdd
  · exact Below.nil

theorem below_run : Below level 2 (run s) := by
  have hempty : Below level 1 (if s.links.listEmpty .ready then [] else listOp .ready :
      List (LockCall (KernelLock ι π))) := by
    split
    · exact Below.nil
    · exact below_listOp .ready
  have hfetch : Below level 2 (taskFetch s) := hempty.locked (by simp [level])
  refine hfetch.append ?_
  split
  · split
    · exact ((below_listOp _).append (below_listOp _)).mono (by simp)
    · exact Below.nil
  · exact Below.nil

theorem below_buddyCalls (n : ℕ) :
    Below level 1 (buddyCalls n : List (LockCall (KernelLock ι π))) :=
  Below.flatMap _ fun _ _ => below_single _ (by simp [level])

theorem below_eputLast (entry : ℕ) (disk : List DiskLock) :
    Below level 2 (eputLast entry disk : List (LockCall (KernelLock ι π))) := by
  have hdisk : Below level 2 (diskCalls disk : List (LockCall (KernelLock ι π))) :=
    Below.flatMap _ fun _ _ => below_single _ (by simp [level])
  have hcache : Below level 2
      (locked .ecache (locked (.disk (.sem entry)) []) : List (LockCall (KernelLock ι π))) :=
    (below_single _ (by simp [level])).locked (by simp [level])
  exact ((hcache.append hdisk).append (below_single _ (by simp [level]))).append
    (below_single _ (by simp [level]))

theorem below_eput (e : Eput) : Below level 2 (eput e : List (LockCall (KernelLock ι π))) := by
  induction e with
  | drop => exact below_single _ (by simp [level])
  | last entry disk => exact below_eputLast entry disk
  | climb entry disk parent ih => exact (below_eputLast entry disk).append ih

theorem below_pipeclose (i : π) (q : TaskQueue (WaitQueue π)) (other : Bool) :
    Below level 3 (pipeclose s i q other) := by
  refine ((below_wakeupFromwq q).locked (by simp [level])).append ?_
  split
  · exact below_single _ (by simp [level])
  · exact Below.nil

theorem below_fileclose (closing : Closing π) : Below level 3 (fileclose s closing) := by
  refine (below_single _ (by simp [level])).append ?_
  split
  · exact below_pipeclose _ _ _
  · exact below_pipeclose _ _ _
  · exact (below_eput _).mono (by simp)
  · exact Below.nil

theorem below_closeFiles (files : List (Closing π)) : Below level 3 (closeFiles s files).1 := by
  induction files generalizing s with
  | nil => exact Below.nil
  | cons closing files ih => exact (below_fileclose closing).append ih

theorem below_adopt (initproc p : ι) (fuel : ℕ) (L : Links (Node ι ι)) :
    Below level 1 (adopt initproc p fuel L : List (LockCall (KernelLock ι π))) := by
  induction fuel generalizing L with
  | zero => exact Below.nil
  | succ fuel ih =>
      rw [adopt]
      split
      · exact Below.nil
      · refine ((below_single _ (by simp [level])).append
          (below_single _ (by simp [level]))).append ?_
        split
        · exact ih _
        · exact Below.nil

theorem below_forkWork (p : ι) (work : ForkWork) : Below level 3
    (buddyCalls (work.space + 1) ++ locked .pidAllocator [] ++ buddyCalls work.stack ++
      (if work.cwd then locked .ecache [] else []) ++
      (List.replicate work.files ()).flatMap (fun _ => locked .ftable []) ++
      locked (.child p) [] : List (LockCall (KernelLock ι π))) := by
  have hbuddy : ∀ n, Below level 3 (buddyCalls n : List (LockCall (KernelLock ι π))) := fun n =>
    (below_buddyCalls n).mono (by simp)
  have hcwd : Below level 3
      (if work.cwd then locked .ecache [] else [] : List (LockCall (KernelLock ι π))) := by
    split
    · exact below_single _ (by simp [level])
    · exact Below.nil
  exact (((((hbuddy _).append (below_single _ (by simp [level]))).append (hbuddy _)).append
    hcwd).append (Below.flatMap _ fun _ _ => below_single _ (by simp [level]))).append
      (below_single _ (by simp [level]))

/-- What a process holds while it runs: its lock beside those of other tasks. -/
theorem runCalls_tcb {held : Finset (KernelLock ι π)} {p : ι}
    {cs : List (LockCall (KernelLock ι π))} (h : Below level 3 cs)
    (hheld : ∀ lk ∈ held, level lk = 3) (hp : .tcb p ∉ held) :
    runCalls held (locked (.tcb p) cs) = some held := by
  refine runCalls_locked hp (h _ fun lk hlk => ?_)
  rcases Finset.mem_insert.mp hlk with rfl | hlk
  · exact le_rfl
  · exact (hheld lk hlk).ge

end Locking

/-! ## The rounds of `waitpid` -/

namespace Processes

variable {ι ω : Type*} [DecidableEq ι]

/-- The children whose locks the inner loop of `waitpid` takes, from `elem` on. -/
def scanned (s : Processes ι ω) (p : ι) (pid : BitVec 64) : ℕ → Node ι ι → List ι
  | 0, _ => []
  | fuel + 1, elem =>
      if elem = .tail p then []
      else
        match elem with
        | .elem c =>
            c ::
              if s.Wanted pid c ∧ s.tasks.status c = .zombie then []
              else (s.child.next elem).elim [] (scanned s p pid fuel)
        | _ => []

/-- The children that a `waitpid` of `p` comes to. -/
def reached (s : Processes ι ω) (p : ι) (pid : BitVec 64) : List ι :=
  (s.child.next (.head p)).elim [] (s.scanned p pid (s.tasks.known.length + 1))

end Processes

namespace Locking

variable {ι π : Type*} [DecidableEq ι] [DecidableEq π] {s : Processes ι (WaitQueue π)}
  {initproc p x : ι} {pid : BitVec 64} {flag flag' : Bool} {held : Finset (KernelLock ι π)}
  {ys : List ι} {cs : List (LockCall (KernelLock ι π))} {found : Option ι}

/-- What the inner loop of `waitpid` does that comes to the children `ys`. -/
structure Scan (s : Processes ι (WaitQueue π)) (pid : BitVec 64) (flag : Bool)
    (held : Finset (KernelLock ι π)) (ys : List ι) (cs : List (LockCall (KernelLock ι π)))
    (found : Option ι) (flag' : Bool) : Prop where
  fails : (∃ c ∈ ys, .tcb c ∈ held) → runCalls held cs = none
  runs : (∀ c ∈ ys, .tcb c ∉ held) →
    runCalls held cs = some (found.elim held fun c => insert (.tcb c) held)
  reports : ∀ c, found = some c → c ∈ ys ∧ s.Wanted pid c ∧ s.tasks.status c = .zombie
  misses : found = none → (∀ c ∈ ys, s.Wanted pid c → s.tasks.status c ≠ .zombie) ∧
    (flag' = true ↔ flag = true ∨ ∃ c ∈ ys, s.Wanted pid c)

theorem Scan.nil : Scan s pid flag held [] [] none flag :=
  ⟨by simp, fun _ => rfl, by simp, by simp⟩

theorem Scan.hit (hw : s.Wanted pid x) (hz : s.tasks.status x = .zombie) :
    Scan s pid flag held [x] [.acquire (.tcb x)] (some x) true :=
  ⟨by simp [runCalls_acquire], by simp [runCalls_acquire],
    fun c hc => Option.some.inj hc ▸ ⟨by simp, hw, hz⟩, by simp⟩

theorem Scan.cons {flag₁ : Bool} (h : Scan s pid flag₁ held ys cs found flag')
    (hx : s.Wanted pid x → s.tasks.status x ≠ .zombie)
    (hflag : flag₁ = true ↔ flag = true ∨ s.Wanted pid x) :
    Scan s pid flag held (x :: ys) (.acquire (.tcb x) :: .release (.tcb x) :: cs) found flag' := by
  have hpass : .tcb x ∉ held → runCalls held (.acquire (.tcb x) :: .release (.tcb x) :: cs) =
      runCalls held cs := fun hfree => by
    rw [runCalls_acquire, if_neg hfree, runCalls_release, if_pos (Finset.mem_insert_self ..),
      Finset.erase_insert hfree]
  refine ⟨fun ⟨c, hc, hheld⟩ => ?_, fun hfree => ?_, fun c hc => ?_, fun hnone => ?_⟩
  · by_cases hfree : .tcb x ∈ held
    · rw [runCalls_acquire, if_pos hfree]
    · rw [hpass hfree]
      rcases List.mem_cons.mp hc with rfl | hc
      · exact absurd hheld hfree
      · exact h.fails ⟨c, hc, hheld⟩
  · rw [hpass (hfree x (by simp))]
    exact h.runs fun c hc => hfree c (List.mem_cons_of_mem _ hc)
  · exact ⟨List.mem_cons_of_mem _ (h.reports c hc).1, (h.reports c hc).2⟩
  · obtain ⟨hz, hiff⟩ := h.misses hnone
    refine ⟨fun c hc => ?_, ?_⟩
    · rcases List.mem_cons.mp hc with rfl | hc
      · exact hx
      · exact hz c hc
    · rw [hiff, hflag]
      simp [or_assoc]

theorem scan_spec (pid : BitVec 64) (flag : Bool) {a : Node ι ι} {xs : List ι} {fuel : ℕ}
    (hl : Linked s.child a (xs.map .elem) (.tail p)) (hfuel : xs.length < fuel)
    (held : Finset (KernelLock ι π)) :
    ∃ ys cs found flag', (s.child.next a).elim [] (s.scanned p pid fuel) = ys ∧
      ((s.child.next a).elim [] fun elem => scan s p pid fuel elem) = cs ∧
      ((s.child.next a).bind fun elem => s.scan p pid fuel elem flag) = some (found, flag') ∧
      (∀ c ∈ ys, c ∈ xs) ∧ Scan s pid flag held ys cs found flag' := by
  induction xs generalizing a fuel flag with
  | nil =>
      obtain ⟨fuel, rfl⟩ := Nat.exists_eq_add_one_of_ne_zero (by omega : fuel ≠ 0)
      exact ⟨[], [], none, flag, by simp [hl.1, Processes.scanned], by simp [hl.1, scan],
        by simp [hl.1, Processes.scan], by simp, Scan.nil⟩
  | cons x xs ih =>
      obtain ⟨fuel, rfl⟩ := Nat.exists_eq_add_one_of_ne_zero (by omega : fuel ≠ 0)
      obtain ⟨hn, -, hl⟩ := hl
      rw [List.length_cons] at hfuel
      simp only [hn, Option.elim_some, Option.bind_some, Processes.scanned, scan, Processes.scan,
        if_neg (by simp : Node.elem x ≠ Node.tail p)]
      by_cases hw : s.Wanted pid x
      · by_cases hz : s.tasks.status x = .zombie
        · exact ⟨[x], _, some x, true, by simp [hw, hz], by simp [hw, hz], by simp [hw, hz],
            by simp, Scan.hit hw hz⟩
        · obtain ⟨ys, cs, found, flag', hys, hcs, hscan, hsub, h⟩ := ih true hl
            (by omega : xs.length < fuel)
          refine ⟨x :: ys, .acquire (.tcb x) :: .release (.tcb x) :: cs, found, flag',
            by simpa [hw, hz] using hys, ?_, by simpa [hw, hz] using hscan, fun c hc => ?_,
            h.cons (fun _ => hz) (by simp [hw])⟩
          · rw [← hcs]
            cases s.child.next (.elem x) <;> simp [hz]
          · exact List.mem_cons.mpr ((List.mem_cons.mp hc).imp id (hsub c))
      · obtain ⟨ys, cs, found, flag', hys, hcs, hscan, hsub, h⟩ := ih flag hl
          (by omega : xs.length < fuel)
        refine ⟨x :: ys, .acquire (.tcb x) :: .release (.tcb x) :: cs, found, flag',
          by simpa [hw] using hys, ?_, by simpa [hw] using hscan, fun c hc => ?_,
          h.cons (fun hw' => absurd hw' hw) (by simp [hw])⟩
        · rw [← hcs]
          cases s.child.next (.elem x) <;> simp [hw]
        · exact List.mem_cons.mpr ((List.mem_cons.mp hc).imp id (hsub c))

end Locking

/-! ## The invariant -/

namespace Kernel

open Processes Locking

variable {ι π : Type*} [DecidableEq ι] [DecidableEq π] {s s₁ : Kernel ι π} {initproc p : ι}
  {held H : Finset (KernelLock ι π)}

/-- A `waitpid` of `p` comes to no child inside `sleep`; where it does not wait, it finds a
zombie, or no child that is wanted. -/
def WaitMeets (s : Kernel ι π) (p : ι) (call : WaitCall) : Prop :=
  (∀ c ∈ s.procs.reached p call.pid, ¬ s.InSleep c) ∧
    (call.options = 0 ∨
      (∃ c ∈ s.procs.reached p call.pid,
        s.procs.Wanted call.pid c ∧ s.procs.tasks.status c = .zombie) ∨
      call.flag = false ∧ ∀ c ∈ s.procs.reached p call.pid, ¬ s.procs.Wanted call.pid c)

/-- The condition on a turn. -/
def Meets (initproc : ι) (s : Kernel ι π) : KernelOp ι π → Prop
  | .exit .. => s.procs.tasks.running = some initproc ∨ ¬ s.InSleep initproc
  | .waitpid pid codeExitAddr options _ => ∀ p, s.procs.tasks.running = some p →
      s.WaitMeets p ⟨pid, codeExitAddr, options, false⟩
  | .consoleread n _ => n ≤ 0
  | .resume _ => ∀ p, s.procs.tasks.running = some p → ∀ call, s.procs.call p = some call →
      s.WaitMeets p call
  | _ => True

/-- What is held between turns. -/
def Sleepers (s : Kernel ι π) (held : Finset (KernelLock ι π)) : Prop :=
  ∀ lk, lk ∈ held ↔ ∃ t, lk = .tcb t ∧ s.InSleep t

/-- What is held besides the lock of `p`. -/
def Others (s : Kernel ι π) (p : ι) (H : Finset (KernelLock ι π)) : Prop :=
  ∀ lk, lk ∈ H ↔ ∃ t, t ≠ p ∧ lk = .tcb t ∧ s.InSleep t

/-- The invariant, without the locks. -/
structure CallsOk (initproc : ι) (s : Kernel ι π) : Prop where
  tree : ∃ cs, TreeOk initproc s.procs cs
  known : ∀ t, s.InSleep t → t ∈ s.procs.tasks.known
  waits : ∀ t, (s.procs.call t).isSome = true → s.pending t = none
  pipes : ∀ t i, s.pending t = some (.piperead i) ∨ s.pending t = some (.pipewrite i) →
    s.PipeLive i
  cons : s.cons.r = s.cons.w ∧ ∀ t target left, s.pending t ≠ some (.consoleread target left)

structure KernelOk (initproc : ι) (s : Kernel ι π) : Prop extends CallsOk initproc s where
  locks : ∃ held, s.locks.Holds held ∧ s.Sleepers held

omit [DecidableEq ι] [DecidableEq π] in
theorem of_current (h : s.current = some p) : s.procs.current = some p ∧
    s.procs.tasks.running = some p ∧ s.procs.call p = none ∧ s.pending p = none := by
  simp only [current, Option.bind_eq_some_iff, Option.ite_none_right_eq_some,
    Option.isNone_iff_eq_none] at h
  obtain ⟨q, hcur, hpending, hq⟩ := h
  obtain rfl := Option.some.inj hq
  refine ⟨hcur, running_of_current hcur, ?_, hpending⟩
  simp only [Processes.current, Option.bind_eq_some_iff, Option.ite_none_right_eq_some,
    Option.isNone_iff_eq_none] at hcur
  obtain ⟨q, -, hcall, hq⟩ := hcur
  rwa [← Option.some.inj hq]

omit [DecidableEq ι] [DecidableEq π] in
theorem not_inSleep (hcall : s.procs.call p = none) (hpending : s.pending p = none) :
    ¬ s.InSleep p := by simp [InSleep, hcall, hpending]

omit [DecidableEq ι] [DecidableEq π] in
theorem Sleepers.level (h : s.Sleepers held) : ∀ lk ∈ held, level lk = 3 := fun lk hlk => by
  obtain ⟨t, rfl, -⟩ := (h lk).mp hlk
  rfl

omit [DecidableEq ι] [DecidableEq π] in
theorem Sleepers.mem_iff (h : s.Sleepers held) (t : ι) : .tcb t ∈ held ↔ s.InSleep t := by
  simp [h (.tcb t)]

omit [DecidableEq ι] [DecidableEq π] in
theorem Sleepers.congr (h : s.Sleepers held) (hsame : ∀ t, s₁.InSleep t ↔ s.InSleep t) :
    s₁.Sleepers held := fun lk => by simp only [h lk, hsame]

theorem Sleepers.others (h : s.Sleepers held) : s.Others p (held.erase (.tcb p)) := fun lk => by
  rw [Finset.mem_erase, h lk]
  constructor
  · rintro ⟨hne, t, rfl, ht⟩
    exact ⟨t, by simpa using hne, rfl, ht⟩
  · rintro ⟨t, hne, rfl, ht⟩
    exact ⟨by simpa using hne, t, rfl, ht⟩

theorem Sleepers.others_of_awake (h : s.Sleepers held) (hp : ¬ s.InSleep p) :
    s.Others p held := by
  have hothers := h.others (p := p)
  rwa [Finset.erase_eq_of_notMem fun hin => hp ((h.mem_iff p).mp hin)] at hothers

omit [DecidableEq ι] [DecidableEq π] in
theorem Others.free (h : s.Others p H) : .tcb p ∉ H := by simp [h (.tcb p)]

omit [DecidableEq ι] [DecidableEq π] in
theorem Others.level (h : s.Others p H) : ∀ lk ∈ H, level lk = 3 := fun lk hlk => by
  obtain ⟨t, -, rfl, -⟩ := (h lk).mp hlk
  rfl

/-- The locks of the sleepers behind a turn of `p`. -/
theorem Others.sleepers (h : s.Others p H) (hsame : ∀ t, t ≠ p → (s₁.InSleep t ↔ s.InSleep t))
    {asleep : Bool} (hp : s₁.InSleep p ↔ asleep = true) :
    s₁.Sleepers (if asleep then insert (.tcb p) H else H) := by
  have hrest : ∀ lk, lk ∈ H ↔ ∃ t, t ≠ p ∧ lk = .tcb t ∧ s₁.InSleep t := fun lk => by
    rw [h lk]
    exact exists_congr fun t => and_congr_right fun hne => by rw [hsame t hne]
  intro lk
  cases asleep with
  | true =>
      rw [if_pos rfl, Finset.mem_insert, hrest]
      constructor
      · rintro (rfl | ⟨t, -, rfl, ht⟩)
        · exact ⟨p, rfl, hp.mpr rfl⟩
        · exact ⟨t, rfl, ht⟩
      · rintro ⟨t, rfl, ht⟩
        by_cases hne : t = p
        · exact .inl (by rw [hne])
        · exact .inr ⟨t, hne, rfl, ht⟩
  | false =>
      rw [if_neg (by simp), hrest]
      constructor
      · rintro ⟨t, -, rfl, ht⟩
        exact ⟨t, rfl, ht⟩
      · rintro ⟨t, rfl, ht⟩
        refine ⟨t, ?_, rfl, ht⟩
        rintro rfl
        simpa using hp.mp ht

/-! ## The rounds of `waitpid` in a state -/

theorem waitRound_spec {cs : ι → List ι} (hok : TreeOk initproc s.procs cs)
    (hp : s.procs.tasks.running = some p) (call : WaitCall) (copied : Bool)
    (hH : s.Others p H) :
    ∃ r procs, s.procs.waitRound p call copied = some (r, procs) ∧
      (∃ cs', TreeOk initproc procs cs') ∧
      (s.WaitMeets p call → runCalls (insert (.tcb p) H) (Locking.waitRound s.procs p call) =
        some (if r.isNone then insert (.tcb p) H else H)) ∧
      (¬ s.WaitMeets p call →
        runCalls (insert (.tcb p) H) (Locking.waitRound s.procs p call) = none ∨
          runCalls (insert (.tcb p) H) (Locking.waitRound s.procs p call) =
            some (insert (.tcb p) H) ∧ r = some 0 ∧ procs.tasks = s.procs.tasks) := by
  obtain ⟨hknown, hst⟩ := hok.running hp
  obtain ⟨r, procs, hrun, hok', -⟩ := hok.waitRound hp call copied
    (rfl : (ProcOp.resume copied : ProcOp ι (WaitQueue π)).isWaitpid = true)
  refine ⟨r, procs, hrun, hok', ?_⟩
  obtain ⟨ys, calls, found, flag, hys, hcalls, hscan, hsub, hspec⟩ := scan_spec
    call.pid call.flag (hok.child.linked p hknown)
    (Nat.lt_succ_of_le (hok.length_le p)) (insert (.tcb p) H)
  have hne : ∀ c ∈ ys, c ≠ p := fun c hc heq =>
    hok.self p (heq ▸ ((hok.mem p c).mp (hsub c hc)).2)
  have hmem : ∀ c ∈ ys, (.tcb c ∈ insert (.tcb p) H ↔ s.InSleep c) := fun c hc => by
    simp [hne c hc, hH (.tcb c)]
  have hreached : s.procs.reached p call.pid = ys := hys
  have hscanned : s.procs.scanChildren p call = some (found, flag) := hscan
  have hround : Locking.waitRound s.procs p call = calls ++ found.elim
      (if flag = false ∨ s.procs.tasks.status p = .zombie then [.release (.tcb p)]
        else if call.options = 0 then Locking.sleep p .sleepVec (.tcb p) else [])
      fun c => [.release (.tcb p), .release (.tcb c)] := by
    rw [Locking.waitRound, hcalls, hscanned]
    cases found <;> rfl
  rw [hround, runCalls_append, WaitMeets, hreached]
  by_cases hasleep : ∃ c ∈ ys, s.InSleep c
  · obtain ⟨c, hc, hsleep⟩ := hasleep
    rw [hspec.fails ⟨c, hc, (hmem c hc).mpr hsleep⟩]
    exact ⟨fun hmeets => absurd hsleep (hmeets.1 c hc), fun _ => .inl rfl⟩
  · have hfree : ∀ c ∈ ys, ¬ s.InSleep c := fun c hc hsleep => hasleep ⟨c, hc, hsleep⟩
    rw [hspec.runs fun c hc hin => hfree c hc ((hmem c hc).mp hin), Option.bind_some]
    have hgive : runCalls (insert (.tcb p) H) [.release (.tcb p)] = some H := by
      rw [runCalls_release, if_pos (Finset.mem_insert_self ..), Finset.erase_insert hH.free,
        runCalls_nil]
    simp only [Processes.waitRound, hscanned, Option.bind_some] at hrun
    cases found with
    | some c =>
        obtain ⟨hc, hw, hz⟩ := hspec.reports c rfl
        have hfreeH : .tcb c ∉ H := fun hin =>
          hfree c hc ((hmem c hc).mp (Finset.mem_insert_of_mem hin))
        have hsome : r.isNone = false := by
          simp only [Option.map_eq_some_iff] at hrun
          obtain ⟨⟨pid, t⟩, -, heq⟩ := hrun
          obtain ⟨rfl, -⟩ := Prod.mk.inj heq
          rfl
        have hboth : runCalls (insert (.tcb c) (insert (.tcb p) H))
            [.release (.tcb p), .release (.tcb c)] = some H := by
          rw [Finset.insert_comm, runCalls_release, if_pos (Finset.mem_insert_self ..),
            Finset.erase_insert (by simp [(hne c hc).symm, hH.free]), runCalls_release,
            if_pos (Finset.mem_insert_self ..), Finset.erase_insert hfreeH, runCalls_nil]
        refine ⟨fun _ => by rw [hsome]; exact hboth, fun hmeets => absurd ⟨hfree, ?_⟩ hmeets⟩
        exact .inr (.inl ⟨c, hc, hw, hz⟩)
    | none =>
        obtain ⟨hnoz, hflag⟩ := hspec.misses rfl
        simp only [Option.elim_none]
        by_cases hend : flag = false ∨ s.procs.tasks.status p = .zombie
        · have hlost : flag = false := hend.resolve_right hst
          rw [if_pos hend] at hrun ⊢
          obtain ⟨rfl, -⟩ := Prod.mk.inj (Option.some.inj hrun)
          refine ⟨fun _ => hgive, fun hmeets => absurd ⟨hfree, .inr (.inr ?_)⟩ hmeets⟩
          rw [hlost] at hflag
          have hboth := not_or.mp fun hor => Bool.false_ne_true (hflag.mpr hor)
          exact ⟨by simpa using hboth.1, fun c hc hw => hboth.2 ⟨c, hc, hw⟩⟩
        · rw [if_neg hend] at hrun ⊢
          by_cases hopt : call.options = 0
          · rw [if_pos hopt] at hrun ⊢
            simp only [Option.map_eq_some_iff] at hrun
            obtain ⟨tasks, -, heq⟩ := hrun
            obtain ⟨rfl, -⟩ := Prod.mk.inj heq
            have hlevel : ∀ lk ∈ insert (.tcb p) H, 1 ≤ level lk := fun lk hlk => by
              rcases Finset.mem_insert.mp hlk with rfl | hlk
              · simp [level]
              · simp [hH.level lk hlk]
            refine ⟨fun _ => ?_, fun hmeets => absurd ⟨hfree, .inl hopt⟩ hmeets⟩
            rw [Locking.sleep, if_pos rfl, List.nil_append, below_listOp _ _ hlevel]
            rfl
          · rw [if_neg hopt] at hrun ⊢
            obtain ⟨rfl, rfl⟩ := Prod.mk.inj (Option.some.inj hrun)
            refine ⟨fun hmeets => ?_, fun _ => .inr ⟨rfl, rfl, rfl⟩⟩
            have hwanted : flag = true := by simpa using fun hf => hend (.inl hf)
            rcases hmeets.2 with h | ⟨c, hc, hw, hz⟩ | ⟨hf, hnone⟩
            · exact absurd h hopt
            · exact absurd hz (hnoz c hc hw)
            · rcases hflag.mp hwanted with h | ⟨c, hc, hw⟩
              · simp [hf] at h
              · exact absurd hw (hnone c hc)

/-! ## What a turn does besides its calls -/

/-- A step of the processes outside `waitpid`. -/
theorem CallsOk.proc (h : CallsOk initproc s) (op : ProcOp ι (WaitQueue π))
    (hp : s.procs.Permitted op) (hop : op.isWaitpid = false)
    (hexit : ∀ code closed, op = .exit code closed → s.procs.tasks.running ≠ some initproc) :
    ∃ s₁, s.proc initproc op = some s₁ ∧ CallsOk initproc s₁ ∧ s₁.procs.call = s.procs.call ∧
      s₁.pending = s.pending ∧ Grows s.procs s₁.procs := by
  obtain ⟨cs, htree⟩ := h.tree
  obtain ⟨r, procs, hrun, htree', -⟩ := htree.step hp hexit
  have hnew : ∀ c, op = .fork c → s.procs.call c = none := by
    rintro c rfl
    by_contra hsome
    exact hp.2 (h.known c (.inl (Option.isSome_iff_ne_none.mpr hsome)))
  obtain ⟨hgrows, hcall⟩ := procStep_keeps hrun hop hnew
  refine ⟨{ s with procs }, by simp [Kernel.proc, hrun], ⟨htree', fun t ht => ?_, ?_, ?_, h.cons⟩,
    hcall, rfl, hgrows⟩
  · refine hgrows.known t (h.known t ?_)
    simpa only [InSleep, hcall] using ht
  · simpa only [hcall] using h.waits
  · exact fun t i hpend => ⟨hgrows.live _ (h.pipes t i hpend).1, hgrows.live _ (h.pipes t i hpend).2⟩

omit [DecidableEq π] in
/-- A call of `p` begins to sleep or comes to its end. -/
theorem CallsOk.setPending (h : CallsOk initproc s) (hp : p ∈ s.procs.tasks.known)
    (hcall : s.procs.call p = none) {c : Option (PendingCall π)}
    (hpipe : ∀ i, c = some (.piperead i) ∨ c = some (.pipewrite i) → s.PipeLive i)
    (hcons : ∀ target left, c ≠ some (.consoleread target left)) :
    CallsOk initproc (s.setPending p c) := by
  have hother : ∀ t, t ≠ p → (s.setPending p c).pending t = s.pending t := fun t ht => by
    simp [Kernel.setPending, ht]
  have hself : (s.setPending p c).pending p = c := by simp [Kernel.setPending]
  refine ⟨h.tree, fun t ht => ?_, fun t ht => ?_, fun t i ht => ?_, h.cons.1, fun t target left => ?_⟩
  · by_cases hne : t = p
    · exact hne ▸ hp
    · refine h.known t ?_
      simpa only [InSleep, hother t hne, setPending_procs] using ht
  · have hne : t ≠ p := by
      rintro rfl
      change (s.procs.call t).isSome = true at ht
      simp [hcall] at ht
    rw [hother t hne]
    exact h.waits t ht
  · by_cases hne : t = p
    · rw [hne, hself] at ht
      exact hpipe i ht
    · rw [hother t hne] at ht
      exact h.pipes t i ht
  · by_cases hne : t = p
    · rw [hne, hself]
      exact hcons target left
    · rw [hother t hne]
      exact h.cons.2 t target left

/-- What a turn of `p` does to the calls. -/
structure Turned (initproc : ι) (s : Kernel ι π) (p : ι) (asleep : Bool) (s₁ : Kernel ι π) :
    Prop where
  ok : CallsOk initproc s₁
  others : ∀ t, t ≠ p → (s₁.InSleep t ↔ s.InSleep t)
  self : s₁.InSleep p ↔ asleep = true

/-- A process that runs goes to sleep on a pipe. -/
theorem CallsOk.sleepOn (h : CallsOk initproc s) (hp : s.procs.tasks.running = some p)
    (hcall : s.procs.call p = none) {w : WaitQueue π} {i : π} {c : PendingCall π}
    (hlive : s.PipeLive i) (hw : w = .rwaiter i ∧ c = .piperead i ∨ w = .wwaiter i ∧ c = .pipewrite i) :
    ∃ s₁, ((s.proc initproc (.sleep w)).map fun s => s.setPending p (some c)) = some s₁ ∧
      Turned initproc s p true s₁ := by
  have hcur : s.procs.current = some p := by simp [Processes.current, hp, hcall]
  have hwlive : s.procs.tasks.live (.other w) = true := by
    rcases hw with ⟨rfl, -⟩ | ⟨rfl, -⟩
    · exact hlive.1
    · exact hlive.2
  obtain ⟨s₁, hrun, h₁, hcall₁, hpend₁, hgrows⟩ := h.proc (.sleep w)
    ⟨by simp [hcur], hwlive⟩ rfl (by simp)
  obtain ⟨cs, htree⟩ := h.tree
  have hlive₁ : s₁.PipeLive i := ⟨hgrows.live _ hlive.1, hgrows.live _ hlive.2⟩
  refine ⟨_, by rw [hrun]; rfl, h₁.setPending (hgrows.known p (htree.running hp).1)
    (by rw [hcall₁, hcall]) (fun j hj => ?_) (fun target left => ?_), fun t ht => ?_, ?_⟩
  · have hij : j = i := by
      rcases hw with ⟨-, rfl⟩ | ⟨-, rfl⟩ <;> simpa [eq_comm] using hj
    exact hij ▸ hlive₁
  · rcases hw with ⟨-, rfl⟩ | ⟨-, rfl⟩ <;> simp
  · simp [InSleep, Kernel.setPending, ht, hcall₁, hpend₁]
  · simp [InSleep, Kernel.setPending]

/-- A call of `p` wakes a task and comes to its end. -/
theorem CallsOk.wakeAndReturn (h : CallsOk initproc s) (hp : s.procs.tasks.running = some p)
    (hcall : s.procs.call p = none) {w : WaitQueue π}
    (hw : s.procs.tasks.live (.other w) = true) :
    ∃ s₁, ((s.proc initproc (.wakeupFromwq w)).map fun s => s.setPending p none) = some s₁ ∧
      Turned initproc s p false s₁ := by
  obtain ⟨s₁, hrun, h₁, hcall₁, hpend₁, hgrows⟩ := h.proc (.wakeupFromwq w) hw rfl (by simp)
  obtain ⟨cs, htree⟩ := h.tree
  refine ⟨_, by rw [hrun]; rfl, h₁.setPending (hgrows.known p (htree.running hp).1)
    (by rw [hcall₁, hcall]) (by simp) (by simp), fun t ht => ?_, ?_⟩
  · simp [InSleep, Kernel.setPending, ht, hcall₁, hpend₁]
  · simp [InSleep, Kernel.setPending, hcall₁, hcall]

/-- The wake-up before a sleep leaves the process running. -/
theorem CallsOk.wake (h : CallsOk initproc s) (hp : s.procs.tasks.running = some p)
    {w : WaitQueue π} (hw : s.procs.tasks.live (.other w) = true) :
    ∃ s₁, s.proc initproc (.wakeupFromwq w) = some s₁ ∧ CallsOk initproc s₁ ∧
      s₁.procs.call = s.procs.call ∧ s₁.pending = s.pending ∧ Grows s.procs s₁.procs ∧
      s₁.procs.tasks.running = some p := by
  obtain ⟨s₁, hrun, h₁, hcall₁, hpend₁, hgrows⟩ := h.proc (.wakeupFromwq w) hw rfl (by simp)
  obtain ⟨cs, htree⟩ := h.tree
  obtain ⟨tasks, hwake, -, hrunning, -⟩ := htree.tasks.wakeupFromwq (q := .other w) rfl hw
  refine ⟨s₁, hrun, h₁, hcall₁, hpend₁, hgrows, ?_⟩
  simp only [Kernel.proc, procStep, schedule, hwake, Option.map_some, Option.some.injEq] at hrun
  rw [← hrun]
  exact hrunning.trans hp

theorem CallsOk.piperead (h : CallsOk initproc s) (hp : s.procs.tasks.running = some p)
    (hcall : s.procs.call p = none) {i : π} (hlive : s.PipeLive i) (found : Found) :
    ∃ s₁, s.piperead initproc p i found = some s₁ ∧ Turned initproc s p found.blocked s₁ := by
  obtain ⟨cs, htree⟩ := h.tree
  rw [Kernel.piperead, if_neg (htree.running hp).2]
  cases hb : found.blocked with
  | true => exact h.sleepOn hp hcall hlive (.inl ⟨rfl, rfl⟩)
  | false => exact h.wakeAndReturn hp hcall hlive.2

theorem CallsOk.pipewrite (h : CallsOk initproc s) (hp : s.procs.tasks.running = some p)
    (hcall : s.procs.call p = none) {i : π} (hlive : s.PipeLive i) (found : Found) :
    ∃ s₁, s.pipewrite initproc p i found = some s₁ ∧
      Turned initproc s p (found.blocked && found.readopen) s₁ := by
  obtain ⟨cs, htree⟩ := h.tree
  have hrun := htree.running hp
  rw [Kernel.pipewrite]
  cases hb : found.blocked with
  | true =>
      cases ho : found.readopen with
      | true =>
          obtain ⟨s₁, hwake, h₁, hcall₁, hpend₁, hgrows, hp₁⟩ := h.wake hp hlive.1
          obtain ⟨s₂, hsleep, h₂⟩ := h₁.sleepOn (i := i) hp₁ (by rw [hcall₁, hcall])
            ⟨hgrows.live _ hlive.1, hgrows.live _ hlive.2⟩ (.inr ⟨rfl, rfl⟩)
          refine ⟨s₂, by simpa [hrun.2, hwake] using hsleep, h₂.ok, fun t ht => ?_, h₂.self⟩
          rw [h₂.others t ht]
          simp only [InSleep, hcall₁, hpend₁]
      | false =>
          refine ⟨_, by simp, h.setPending hrun.1 hcall (c := none) (by simp) (by simp),
            fun t ht => ?_, ?_⟩
          · simp [InSleep, Kernel.setPending, ht]
          · simp [InSleep, Kernel.setPending, hcall]
  | false => exact h.wakeAndReturn hp hcall hlive.1

/-! ## The lock calls of a pipe -/

/-- `sleep` with the lock of a pipe gives that up and takes the process's own. -/
theorem runCalls_sleep (hH : s.Others p H) (i : π) (q : TaskQueue (WaitQueue π)) :
    runCalls (insert (.pipe i) H) (Locking.sleep p q (.pipe i)) = some (insert (.tcb p) H) := by
  have hpipe : .pipe i ∉ H := fun hin => by simpa [level] using hH.level _ hin
  have hlevel : ∀ lk ∈ insert (.tcb p) H, 1 ≤ level lk := fun lk hlk => by
    rcases Finset.mem_insert.mp hlk with rfl | hlk
    · simp [level]
    · simp [hH.level lk hlk]
  rw [Locking.sleep, if_neg (by simp), List.cons_append, List.cons_append, List.nil_append,
    runCalls_acquire, if_neg (by simp [hH.free]), runCalls_release,
    if_pos (by simp), Finset.insert_comm, Finset.erase_insert (by simp [hpipe]),
    below_listOp q _ hlevel]

/-- A wake-up under the lock of a pipe. -/
theorem runCalls_wake (hH : s.Others p H) (i : π) (tasks : Tasks ι (WaitQueue π))
    (q : TaskQueue (WaitQueue π)) (cs : List (LockCall (KernelLock ι π))) :
    runCalls (insert (.pipe i) H) (Locking.wakeupFromwq tasks q ++ cs) =
      runCalls (insert (.pipe i) H) cs := by
  have hlevel : ∀ lk ∈ insert (.pipe i) H, 2 ≤ level lk := fun lk hlk => by
    rcases Finset.mem_insert.mp hlk with rfl | hlk
    · simp [level]
    · simp [hH.level lk hlk]
  rw [runCalls_append, below_wakeupFromwq q _ hlevel, Option.bind_some]

theorem runCalls_giveUp (hH : s.Others p H) (i : π) :
    runCalls (insert (.pipe i) H) [.release (.pipe i)] = some H := by
  have hpipe : .pipe i ∉ H := fun hin => by simpa [level] using hH.level _ hin
  rw [runCalls_release, if_pos (Finset.mem_insert_self ..), Finset.erase_insert hpipe, runCalls_nil]

theorem runCalls_piperead (hH : s.Others p H) {tasks : Tasks ι (WaitQueue π)}
    (hst : tasks.status p ≠ .zombie) (i : π) (found : Found) :
    runCalls (insert (.pipe i) H) (Locking.piperead tasks p i found) =
      some (if found.blocked then insert (.tcb p) H else H) := by
  rw [Locking.piperead]
  cases found.blocked with
  | true => simpa [hst] using runCalls_sleep hH i _
  | false => simpa [runCalls_wake hH] using runCalls_giveUp hH i

theorem runCalls_pipewrite (hH : s.Others p H) {tasks : Tasks ι (WaitQueue π)}
    (hst : tasks.status p ≠ .zombie) (i : π) (found : Found) :
    runCalls (insert (.pipe i) H) (Locking.pipewrite tasks p i found) =
      some (if found.blocked && found.readopen then insert (.tcb p) H else H) := by
  rw [Locking.pipewrite]
  cases found.blocked with
  | true =>
      cases found.readopen with
      | true => simpa [hst, runCalls_wake hH] using runCalls_sleep hH i _
      | false => simpa using runCalls_giveUp hH i
  | false => simpa [runCalls_wake hH] using runCalls_giveUp hH i

/-! ## Turns -/

/-- A turn was taken without a panic of `acquire` or `release`. -/
def Taken (initproc : ι) (s : Kernel ι π) (op : KernelOp ι π)
    (held : Finset (KernelLock ι π)) : Prop :=
  ∃ s₁ held', s.effect initproc op = some s₁ ∧ CallsOk initproc s₁ ∧
    runCalls held (s.calls initproc op) = some held' ∧ s₁.Sleepers held'

theorem Turned.taken {asleep : Bool} (h : Turned initproc s p asleep s₁) (hH : s.Others p H)
    {op : KernelOp ι π} (heff : s.effect initproc op = some s₁)
    (hcalls : runCalls held (s.calls initproc op) =
      some (if asleep then insert (.tcb p) H else H)) : Taken initproc s op held :=
  ⟨s₁, _, heff, h.ok, hcalls, hH.sleepers h.others h.self⟩

/-- A step outside `waitpid`, with calls that give back what they take. -/
theorem CallsOk.quiet (h : CallsOk initproc s) (hs : s.Sleepers held) {op : KernelOp ι π}
    (pop : ProcOp ι (WaitQueue π)) (heff : s.effect initproc op = s.proc initproc pop)
    (hp : s.procs.Permitted pop) (hop : pop.isWaitpid = false)
    (hexit : ∀ code closed, pop = .exit code closed → s.procs.tasks.running ≠ some initproc)
    (hcalls : runCalls held (s.calls initproc op) = some held) : Taken initproc s op held := by
  obtain ⟨s₁, hrun, h₁, hcall, hpend, -⟩ := h.proc pop hp hop hexit
  exact ⟨s₁, held, heff.trans hrun, h₁, hcalls, hs.congr fun t => by simp only [InSleep, hcall, hpend]⟩

theorem CallsOk.dispatch (h : CallsOk initproc s) (hs : s.Sleepers held)
    (hp : s.Permitted .dispatch) : Taken initproc s .dispatch held :=
  h.quiet hs .dispatch rfl hp rfl (by simp)
    (below_run held fun lk hlk => by simp [hs.level lk hlk])

theorem CallsOk.suspend (h : CallsOk initproc s) (hs : s.Sleepers held)
    (hp : s.current = some p) : Taken initproc s .suspend held := by
  obtain ⟨hcur, hrunning, hcall, hpend⟩ := of_current hp
  refine h.quiet hs .suspend (by simp [effect, effectOf, hrunning])
    (by simp [Processes.Permitted, hcur]) rfl (by simp) ?_
  have hfree : .tcb p ∉ held := fun hin => not_inSleep hcall hpend ((hs.mem_iff p).mp hin)
  simp only [calls, hrunning, Option.elim_some, callsOf, suspendCurrentAndRunNext]
  rw [runCalls_append, runCalls_tcb Below.nil hs.level hfree, Option.bind_some,
    below_taskAdd held fun lk hlk => by simp [hs.level lk hlk]]

theorem CallsOk.fork (h : CallsOk initproc s) (hs : s.Sleepers held) (hp : s.current = some p)
    {c : ι} (hc : c ∉ s.procs.tasks.known) (work : ForkWork) :
    Taken initproc s (.fork c work) held := by
  obtain ⟨hcur, hrunning, hcall, hpend⟩ := of_current hp
  refine h.quiet hs (.fork c) (by simp [effect, effectOf, hrunning])
    ⟨by simp [hcur], hc⟩ rfl (by simp) ?_
  have hfree : .tcb p ∉ held := fun hin => not_inSleep hcall hpend ((hs.mem_iff p).mp hin)
  simp only [calls, hrunning, Option.elim_some, callsOf, Locking.fork]
  rw [runCalls_append, runCalls_tcb (below_forkWork p work) hs.level hfree, Option.bind_some,
    below_taskAdd held fun lk hlk => by simp [hs.level lk hlk]]

/-- The calls of an exit, where `INITPROC` is not inside `sleep`. -/
theorem runCalls_exit (hs : s.Sleepers held) (hp : ¬ s.InSleep p) (hne : p ≠ initproc)
    (hinit : ¬ s.InSleep initproc) (work : ExitWork π) :
    runCalls held (Locking.exitCurrentAndRunNext initproc s.procs p work) = some held := by
  have hfree : .tcb p ∉ held := fun hin => hp ((hs.mem_iff p).mp hin)
  have hfree' : .tcb initproc ∉ insert (.tcb p) held := by
    simp [hne.symm, hs.mem_iff initproc, hinit]
  have hlevel : ∀ lk ∈ insert (.tcb p) held, level lk = 3 := fun lk hlk => by
    rcases Finset.mem_insert.mp hlk with rfl | hlk
    · rfl
    · exact hs.level lk hlk
  have hbelow : ∀ {n : ℕ} {cs : List (LockCall (KernelLock ι π))}, n ≤ 3 → Below level n cs →
      runCalls (insert (.tcb p) held) cs = some (insert (.tcb p) held) := fun hn hcs =>
    hcs _ fun lk hlk => by simpa [hlevel lk hlk] using hn
  simp only [Locking.exitCurrentAndRunNext, if_neg hne]
  rw [runCalls_append, runCalls_locked hfree, Option.bind_some]
  · split
    · exact below_wakeupFromsv _ held fun lk hlk => by simp [hs.level lk hlk]
    · rfl
  · rw [runCalls_append, runCalls_append, runCalls_append,
      runCalls_tcb ((below_adopt initproc p _ _).mono (by simp)) hlevel hfree', Option.bind_some,
      hbelow (by simp) (below_buddyCalls _), Option.bind_some, hbelow le_rfl (below_closeFiles _),
      Option.bind_some, hbelow (by simp) (below_eput _)]

theorem runCalls_exit_fails (hs : s.Sleepers held) (hne : p ≠ initproc)
    (hinit : s.InSleep initproc) (work : ExitWork π) :
    runCalls held (Locking.exitCurrentAndRunNext initproc s.procs p work) = none := by
  have hheld : .tcb initproc ∈ insert (.tcb p) held :=
    Finset.mem_insert_of_mem ((hs.mem_iff initproc).mpr hinit)
  simp only [Locking.exitCurrentAndRunNext, if_neg hne, locked, List.cons_append, List.append_assoc]
  rw [runCalls_acquire]
  split
  · rfl
  · rw [runCalls_acquire, if_pos hheld]

theorem CallsOk.exit (h : CallsOk initproc s) (hs : s.Sleepers held) (hp : s.current = some p)
    (hne : p ≠ initproc) (hinit : ¬ s.InSleep initproc) {exitCode : BitVec 32} {work : ExitWork π}
    (hlive : ∀ q ∈ work.files.filterMap Closing.queue?, s.procs.tasks.live q = true) :
    Taken initproc s (.exit exitCode work) held := by
  obtain ⟨hcur, hrunning, hcall, hpend⟩ := of_current hp
  refine h.quiet hs (.exit exitCode (work.files.filterMap Closing.queue?))
    (by simp [effect, effectOf, hrunning]) ⟨by simp [hcur], fun q hq => ⟨?_, hlive q hq⟩⟩ rfl
    (by simp [hrunning, hne]) ?_
  · obtain ⟨closing, -, hqueue⟩ := List.mem_filterMap.mp hq
    cases closing with
    | pipe i writable other =>
        cases writable <;> obtain rfl := Option.some.inj hqueue <;> rfl
    | shared => cases hqueue
    | entry e => cases hqueue
    | device => cases hqueue
  · simp only [calls, hrunning, Option.elim_some, callsOf]
    exact runCalls_exit hs (not_inSleep hcall hpend) hne hinit work

/-- The calls of a `waitpid` that has the lock of its process. -/
theorem CallsOk.wait (h : CallsOk initproc s) (hp : s.procs.tasks.running = some p)
    (hpend : s.pending p = none) (call : WaitCall) (copied : Bool) (hH : s.Others p H) :
    ∃ r s₁, (s.procs.waitRound p call copied).map (fun (_, procs) => { s with procs }) = some s₁ ∧
      Turned initproc s p (Option.isNone r) s₁ ∧
      (s.WaitMeets p call → runCalls (insert (.tcb p) H) (Locking.waitRound s.procs p call) =
        some (if r.isNone then insert (.tcb p) H else H)) ∧
      (¬ s.WaitMeets p call →
        runCalls (insert (.tcb p) H) (Locking.waitRound s.procs p call) = none ∨
          runCalls (insert (.tcb p) H) (Locking.waitRound s.procs p call) =
            some (insert (.tcb p) H) ∧ r = some (0 : BitVec 64) ∧
              s₁.procs.tasks = s.procs.tasks) := by
  obtain ⟨cs, htree⟩ := h.tree
  obtain ⟨r, procs, hrun, htree', hmeets, hfails⟩ := waitRound_spec htree hp call copied hH
  obtain ⟨hgrows, c, hcall, hc⟩ := waitRound_keeps hrun
  have hother : ∀ t, t ≠ p → procs.call t = s.procs.call t := fun t ht => by simp [hcall, ht]
  have hself : procs.call p = c := by simp [hcall]
  refine ⟨r, { s with procs }, by simp [hrun], ⟨⟨htree', fun t ht => ?_, fun t ht => ?_,
    fun t i ht => ⟨hgrows.live _ (h.pipes t i ht).1, hgrows.live _ (h.pipes t i ht).2⟩, h.cons⟩,
    fun t ht => ?_, ?_⟩, hmeets, hfails⟩
  · by_cases hne : t = p
    · exact hne ▸ hgrows.known p (htree.running hp).1
    · refine hgrows.known t (h.known t ?_)
      simpa only [InSleep, hother t hne] using ht
  · by_cases hne : t = p
    · exact hne ▸ hpend
    · exact h.waits t (by simpa only [hother t hne] using ht)
  · simp only [InSleep, hother t ht]
  · rw [InSleep, hself, hpend, hc]
    simp

theorem CallsOk.waitpid (h : CallsOk initproc s) (hs : s.Sleepers held) (hp : s.current = some p)
    {pid codeExitAddr : BitVec 64} {options : BitVec 32} {found : Found}
    (hmeets : s.WaitMeets p ⟨pid, codeExitAddr, options, false⟩) :
    Taken initproc s (.waitpid pid codeExitAddr options found) held := by
  obtain ⟨hcur, hrunning, hcall, hpend⟩ := of_current hp
  have hH := hs.others_of_awake (not_inSleep hcall hpend)
  obtain ⟨r, s₁, hrun, hturn, hcalls, -⟩ :=
    h.wait hrunning hpend ⟨pid, codeExitAddr, options, false⟩ found.copied hH
  refine hturn.taken hH ?_ ?_
  · simpa [effect, effectOf, hrunning, Kernel.proc, procStep, hcur] using hrun
  · simp only [calls, hrunning, Option.elim_some, callsOf]
    rw [runCalls_acquire, if_neg hH.free]
    exact hcalls hmeets

theorem CallsOk.pipealloc (h : CallsOk initproc s) (hs : s.Sleepers held) {i : π}
    (hp : s.Permitted (.pipealloc i)) : Taken initproc s (.pipealloc i) held := by
  obtain ⟨hcur, hr, hw⟩ := hp
  obtain ⟨p, hcur⟩ := Option.isSome_iff_exists.mp hcur
  obtain ⟨-, hrunning, -, -⟩ := of_current hcur
  obtain ⟨s₁, hrun₁, h₁, hcall₁, hpend₁, -⟩ := h.proc (.init (.rwaiter i)) hr rfl (by simp)
  have hw₁ : s₁.procs.tasks.live (.other (.wwaiter i)) = false := by
    simp only [Kernel.proc, procStep, schedule, Option.map_some, Option.some.injEq] at hrun₁
    rw [← hrun₁]
    simpa [Tasks.listInit] using hw
  obtain ⟨s₂, hrun₂, h₂, hcall₂, hpend₂, -⟩ := h₁.proc (.init (.wwaiter i)) hw₁ rfl (by simp)
  refine ⟨s₂, held, by simp [effect, effectOf, hrunning, hrun₁, hrun₂], h₂, ?_,
    hs.congr fun t => by simp only [InSleep, hcall₁, hpend₁, hcall₂, hpend₂]⟩
  simp only [calls, hrunning, Option.elim_some, callsOf]
  have hone : ∀ lk : KernelLock ι π, level lk < 3 → Below level 3 (locked lk []) := fun lk hlk =>
    below_single lk hlk
  exact ((hone .ftable (by simp [level])).append (hone .ftable (by simp [level]))).append
    (hone .kheap (by simp [level])) held fun lk hlk => (hs.level lk hlk).ge

theorem CallsOk.pipereadCall (h : CallsOk initproc s) (hs : s.Sleepers held)
    (hp : s.current = some p) {i : π} (hlive : s.PipeLive i) (found : Found) :
    Taken initproc s (.piperead i found) held := by
  obtain ⟨-, hrunning, hcall, hpend⟩ := of_current hp
  obtain ⟨cs, htree⟩ := h.tree
  have hH := hs.others_of_awake (not_inSleep hcall hpend)
  obtain ⟨s₁, hrun, hturn⟩ := h.piperead hrunning hcall hlive found
  refine hturn.taken hH (by simpa [effect, effectOf, hrunning] using hrun) ?_
  simp only [calls, hrunning, Option.elim_some, callsOf]
  rw [runCalls_acquire, if_neg fun hin => by simpa [level] using hH.level _ hin]
  exact runCalls_piperead hH (htree.running hrunning).2 i found

theorem CallsOk.pipewriteCall (h : CallsOk initproc s) (hs : s.Sleepers held)
    (hp : s.current = some p) {i : π} (hlive : s.PipeLive i) (found : Found) :
    Taken initproc s (.pipewrite i found) held := by
  obtain ⟨-, hrunning, hcall, hpend⟩ := of_current hp
  obtain ⟨cs, htree⟩ := h.tree
  have hH := hs.others_of_awake (not_inSleep hcall hpend)
  obtain ⟨s₁, hrun, hturn⟩ := h.pipewrite hrunning hcall hlive found
  refine hturn.taken hH (by simpa [effect, effectOf, hrunning] using hrun) ?_
  simp only [calls, hrunning, Option.elim_some, callsOf]
  rw [runCalls_acquire, if_neg fun hin => by simpa [level] using hH.level _ hin]
  exact runCalls_pipewrite hH (htree.running hrunning).2 i found

/-- A `consoleread` of no byte. -/
theorem CallsOk.consoleread (h : CallsOk initproc s) (hs : s.Sleepers held)
    (hp : s.current = some p) {n : ℤ} (hn : n ≤ 0) (found : Found) :
    Taken initproc s (.consoleread n found) held := by
  obtain ⟨-, hrunning, hcall, hpend⟩ := of_current hp
  obtain ⟨cs, htree⟩ := h.tree
  have hzero : n.toNat = 0 := Int.toNat_of_nonpos hn
  refine ⟨s.setPending p none, held, ?_, h.setPending (htree.running hrunning).1 hcall (by simp)
    (by simp), ?_, hs.congr fun t => ?_⟩
  · simp [effect, effectOf, hrunning, Kernel.consoleread, hzero, Console.read, Kernel.setPending]
  · simp [calls, hrunning, callsOf, hzero, Console.read, Locking.consoleread]
  · by_cases ht : t = p
    · simp [InSleep, Kernel.setPending, ht, hpend]
    · simp [InSleep, Kernel.setPending, ht]

/-- The way out of `sleep` gives up the process's own lock for that of the pipe. -/
theorem runCalls_sleepExit (hs : s.Sleepers held) (hp : s.InSleep p) (i : π)
    (cs : List (LockCall (KernelLock ι π))) :
    runCalls held (sleepExit p (.pipe i) ++ cs) =
      runCalls (insert (.pipe i) (held.erase (.tcb p))) cs := by
  have hpipe : .pipe i ∉ held.erase (.tcb p) := fun hin => by
    simpa [level] using hs.level _ (Finset.mem_of_mem_erase hin)
  rw [sleepExit, if_neg (by simp), List.cons_append, List.cons_append, List.nil_append,
    runCalls_release, if_pos ((hs.mem_iff p).mpr hp), runCalls_acquire, if_neg hpipe]

theorem CallsOk.resume (h : CallsOk initproc s) (hs : s.Sleepers held)
    (hrunning : s.procs.tasks.running = some p) (hp : s.InSleep p) {found : Found}
    (hmeets : ∀ call, s.procs.call p = some call → s.WaitMeets p call) :
    Taken initproc s (.resume found) held := by
  obtain ⟨cs, htree⟩ := h.tree
  have hst := (htree.running hrunning).2
  have hH := hs.others (p := p)
  cases hcall : s.procs.call p with
  | some call =>
      have hpend := h.waits p (by simp [hcall])
      obtain ⟨r, s₁, hrun, hturn, hcalls, -⟩ := h.wait hrunning hpend call found.copied hH
      refine hturn.taken hH ?_ ?_
      · simpa [effect, effectOf, hrunning, hcall, Kernel.proc, procStep] using hrun
      · simp only [calls, hrunning, Option.elim_some, callsOf, hcall, sleepExit, if_true,
          List.nil_append]
        rw [Finset.insert_erase ((hs.mem_iff p).mpr hp)] at hcalls
        rw [Finset.insert_erase ((hs.mem_iff p).mpr hp)]
        exact hcalls (hmeets call hcall)
  | none =>
      cases hpend : s.pending p with
      | none => exact absurd hp (not_inSleep hcall hpend)
      | some c =>
          cases c with
          | piperead i =>
              obtain ⟨s₁, hrun, hturn⟩ := h.piperead hrunning hcall (h.pipes p i (.inl hpend)) found
              refine hturn.taken hH (by simpa [effect, effectOf, hrunning, hcall, hpend] using hrun) ?_
              simp only [calls, hrunning, Option.elim_some, callsOf, hcall, hpend]
              rw [runCalls_sleepExit hs hp]
              exact runCalls_piperead hH hst i found
          | pipewrite i =>
              obtain ⟨s₁, hrun, hturn⟩ := h.pipewrite hrunning hcall (h.pipes p i (.inr hpend)) found
              refine hturn.taken hH (by simpa [effect, effectOf, hrunning, hcall, hpend] using hrun) ?_
              simp only [calls, hrunning, Option.elim_some, callsOf, hcall, hpend]
              rw [runCalls_sleepExit hs hp]
              exact runCalls_pipewrite hH hst i found
          | consoleread target left => exact absurd hpend (h.cons.2 p target left)

/-! ## Turns that break the condition -/

/-- The process that runs goes on outside `sleep` with its own lock. -/
def KeepsLock (initproc : ι) (s : Kernel ι π) (op : KernelOp ι π) : Prop :=
  ∃ p s₁ locks, s.procs.tasks.running = some p ∧ s.effect initproc op = some s₁ ∧
    s₁.procs.tasks.running = some p ∧ ¬ s₁.InSleep p ∧
    s.locks.calls (s.calls initproc op) = some locks ∧ (locks.lock (.tcb p)).locked = true

theorem LockTable_keeps {held' : Finset (KernelLock ι π)} {cs : List (LockCall (KernelLock ι π))}
    (hheld : s.locks.Holds held) (hrun : runCalls held cs = some held') (hp : .tcb p ∈ held') :
    ∃ locks, s.locks.calls cs = some locks ∧ (locks.lock (.tcb p)).locked = true := by
  obtain ⟨locks, hcalls, hlocks⟩ := (hheld.calls cs).1 held' hrun
  exact ⟨locks, hcalls, by rw [hlocks.mem _ hp]⟩

/-- A `waitpid` that breaks the condition. -/
theorem CallsOk.wait_fails (h : CallsOk initproc s) (hheld : s.locks.Holds held)
    (hrunning : s.procs.tasks.running = some p) (hpend : s.pending p = none) {call : WaitCall}
    (copied : Bool) (hH : s.Others p H) (hmeets : ¬ s.WaitMeets p call) {op : KernelOp ι π}
    (heff : s.effect initproc op =
      (s.procs.waitRound p call copied).map fun (_, procs) => { s with procs })
    (hcalls : runCalls held (s.calls initproc op) =
      runCalls (insert (.tcb p) H) (Locking.waitRound s.procs p call)) :
    s.locks.calls (s.calls initproc op) = none ∨ KeepsLock initproc s op := by
  obtain ⟨r, s₁, hrun, hturn, -, hfails⟩ := h.wait hrunning hpend call copied hH
  rcases hfails hmeets with hnone | ⟨hsome, rfl, htasks⟩
  · exact .inl ((hheld.calls _).2 (hcalls.trans hnone))
  · obtain ⟨locks, hlocks, hkept⟩ :=
      LockTable_keeps hheld (hcalls.trans hsome) (Finset.mem_insert_self (.tcb p) H)
    exact .inr ⟨p, s₁, locks, hrunning, heff.trans hrun, by rw [htasks, hrunning],
      fun hsleep => by simpa using hturn.self.mp hsleep, hlocks, hkept⟩

theorem KernelOk.fails (h : KernelOk initproc s) {op : KernelOp ι π} (hp : s.Permitted op)
    (hmeets : ¬ s.Meets initproc op) :
    s.locks.calls (s.calls initproc op) = none ∨ KeepsLock initproc s op := by
  obtain ⟨held, hheld, hs⟩ := h.locks
  cases op with
  | exit exitCode work =>
      obtain ⟨p, hcur⟩ := Option.isSome_iff_exists.mp hp.1
      obtain ⟨-, hrunning, -, -⟩ := of_current hcur
      simp only [Meets, not_or, not_not] at hmeets
      have hne : p ≠ initproc := fun heq => hmeets.1 (heq ▸ hrunning)
      refine .inl ((hheld.calls _).2 ?_)
      simp only [calls, hrunning, Option.elim_some, callsOf]
      exact runCalls_exit_fails hs hne hmeets.2 work
  | waitpid pid codeExitAddr options found =>
      obtain ⟨p, hcur⟩ := Option.isSome_iff_exists.mp hp
      obtain ⟨hpcur, hrunning, hcall, hpend⟩ := of_current hcur
      have hH := hs.others_of_awake (not_inSleep hcall hpend)
      simp only [Meets, not_forall] at hmeets
      obtain ⟨q, hq, hmeets⟩ := hmeets
      obtain rfl := Option.some.inj (hrunning.symm.trans hq)
      refine h.wait_fails hheld hrunning hpend found.copied hH hmeets ?_ ?_
      · simp [effect, effectOf, hrunning, Kernel.proc, procStep, hpcur]
      · simp only [calls, hrunning, Option.elim_some, callsOf]
        rw [runCalls_acquire, if_neg hH.free]
  | consoleread n found =>
      obtain ⟨p, hcur⟩ := Option.isSome_iff_exists.mp hp
      obtain ⟨-, hrunning, hcall, hpend⟩ := of_current hcur
      obtain ⟨cs, htree⟩ := h.tree
      have hH := hs.others_of_awake (not_inSleep hcall hpend)
      obtain ⟨m, hm⟩ : ∃ m, n.toNat = m + 1 := Nat.exists_eq_add_one_of_ne_zero fun hzero =>
        hmeets (Int.toNat_eq_zero.mp hzero)
      refine .inl ((hheld.calls _).2 ?_)
      have hcons : .cons ∉ insert (.tcb p) held := by
        have hfree : .cons ∉ held := fun hin => by simpa [level] using hs.level _ hin
        simpa using hfree
      simp only [calls, hrunning, Option.elim_some, callsOf, hm, Console.read, if_pos h.cons.1,
        Locking.consoleread, if_true, if_neg (htree.running hrunning).2, Locking.sleep]
      rw [if_neg (by simp), List.cons_append, List.cons_append, runCalls_acquire, if_neg hH.free,
        runCalls_release, if_neg hcons]
  | resume found =>
      obtain ⟨p, hrunning, hsleep⟩ := hp
      simp only [Meets, not_forall] at hmeets
      obtain ⟨q, hq, call, hcall, hmeets⟩ := hmeets
      obtain rfl := Option.some.inj (hrunning.symm.trans hq)
      refine h.wait_fails hheld hrunning (h.waits p (by simp [hcall])) found.copied
        hs.others hmeets ?_ ?_
      · simp [effect, effectOf, hrunning, hcall, Kernel.proc, procStep]
      · simp only [calls, hrunning, Option.elim_some, callsOf, hcall, sleepExit, if_true,
          List.nil_append]
        rw [Finset.insert_erase ((hs.mem_iff p).mpr hsleep)]
  | dispatch => exact absurd trivial hmeets
  | suspend => exact absurd trivial hmeets
  | fork c work => exact absurd trivial hmeets
  | pipealloc i => exact absurd trivial hmeets
  | piperead i found => exact absurd trivial hmeets
  | pipewrite i found => exact absurd trivial hmeets

/-! ## Runs -/

/-- Every turn that can come and meets the condition is taken, an exit of `INITPROC`
apart. -/
theorem CallsOk.turn (h : CallsOk initproc s) (hs : s.Sleepers held) {op : KernelOp ι π}
    (hp : s.Permitted op) (hmeets : s.Meets initproc op)
    (hexit : ∀ code work, op = .exit code work → s.procs.tasks.running ≠ some initproc) :
    Taken initproc s op held := by
  cases op with
  | dispatch => exact h.dispatch hs hp
  | suspend =>
      obtain ⟨p, hcur⟩ := Option.isSome_iff_exists.mp hp
      exact h.suspend hs hcur
  | fork c work =>
      obtain ⟨p, hcur⟩ := Option.isSome_iff_exists.mp hp.1
      exact h.fork hs hcur hp.2 work
  | exit exitCode work =>
      obtain ⟨p, hcur⟩ := Option.isSome_iff_exists.mp hp.1
      have hrunning := (of_current hcur).2.1
      have hinit := hexit exitCode work rfl
      refine h.exit hs hcur (fun heq => hinit (heq ▸ hrunning)) (hmeets.resolve_left hinit) hp.2
  | waitpid pid codeExitAddr options found =>
      obtain ⟨p, hcur⟩ := Option.isSome_iff_exists.mp hp
      exact h.waitpid hs hcur (hmeets p (of_current hcur).2.1)
  | pipealloc i => exact h.pipealloc hs hp
  | piperead i found =>
      obtain ⟨p, hcur⟩ := Option.isSome_iff_exists.mp hp.1
      exact h.pipereadCall hs hcur hp.2 found
  | pipewrite i found =>
      obtain ⟨p, hcur⟩ := Option.isSome_iff_exists.mp hp.1
      exact h.pipewriteCall hs hcur hp.2 found
  | consoleread n found =>
      obtain ⟨p, hcur⟩ := Option.isSome_iff_exists.mp hp
      exact h.consoleread hs hcur hmeets found
  | resume found =>
      obtain ⟨p, hrunning, hsleep⟩ := hp
      exact h.resume hs hrunning hsleep (hmeets p hrunning)

theorem KernelOk.step (h : KernelOk initproc s) {op : KernelOp ι π} (hp : s.Permitted op)
    (hmeets : s.Meets initproc op)
    (hexit : ∀ code work, op = .exit code work → s.procs.tasks.running ≠ some initproc) :
    ∃ s', s.kernelStep initproc op = some s' ∧ KernelOk initproc s' := by
  obtain ⟨held, hheld, hs⟩ := h.locks
  obtain ⟨s₁, held', heff, h₁, hcalls, hs₁⟩ := h.toCallsOk.turn hs hp hmeets hexit
  obtain ⟨locks, hlocks, hheld'⟩ := (hheld.calls _).1 held' hcalls
  refine ⟨{ s₁ with locks }, by simp [kernelStep, hlocks, heff], ⟨⟨h₁.tree, h₁.known, h₁.waits,
    h₁.pipes, h₁.cons⟩, held', hheld', hs₁⟩⟩

/-- A turn that was taken is no exit of `INITPROC`. -/
theorem KernelStep.not_init_exit {op : KernelOp ι π} {s' : Kernel ι π}
    (h : KernelStep initproc s op s') :
    ∀ code work, op = .exit code work → s.procs.tasks.running ≠ some initproc := by
  rintro code work rfl hrunning
  obtain ⟨hp, hstep⟩ := h
  obtain ⟨p, hcur⟩ := Option.isSome_iff_exists.mp hp.1
  obtain ⟨hpcur, hp, -, -⟩ := of_current hcur
  obtain rfl := Option.some.inj (hp.symm.trans hrunning)
  simp [kernelStep, effect, effectOf, hp, Kernel.proc, procStep, hpcur,
    Processes.exitCurrentAndRunNext] at hstep

theorem boot_ok {links : Links (Node (TaskQueue (WaitQueue π)) (TaskLink ι))}
    {child : Links (Node ι ι)} {hartid : ℕ} {irq : Bool} {buf : ℕ → Byte}
    (hboot : boot initproc links child hartid irq buf = some s) : KernelOk initproc s := by
  obtain ⟨procs, hinit, htree⟩ := addInitproc_ok initproc links child
  simp only [boot, hinit, Option.map_some, Option.some.injEq] at hboot
  subst hboot
  have hcall : procs.call = fun _ => none := by
    simp only [addInitproc, Option.map_eq_some_iff] at hinit
    obtain ⟨tasks, -, rfl⟩ := hinit
    rfl
  have hlive : procs.tasks.live (.other .waitr) = false := by
    simp only [addInitproc, Option.map_eq_some_iff] at hinit
    obtain ⟨tasks, hadd, rfl⟩ := hinit
    rw [(Tasks.sameMade_taskAdd hadd).1]
    simp [Tasks.tcbNew, Tasks.setStatus, Tasks.tmInit, Tasks.listInit]
  obtain ⟨hok, hz, -⟩ := htree.tasks.init hlive
  have hnone : ∀ t, ¬ InSleep (π := π) ⟨{ procs with tasks := procs.tasks.listInit (.other .waitr) },
      ⟨⟨hartid, irq, 0, false⟩, fun _ => initlock⟩, fun _ => none, ⟨buf, 0, 0⟩⟩ t := fun t =>
    not_inSleep (by simp [hcall]) rfl
  refine ⟨⟨⟨_, htree.schedule hok hz⟩, fun t ht => absurd ht (hnone t), fun t ht => rfl, by simp,
    rfl, by simp⟩, ∅, ⟨by simp, fun _ _ => rfl, rfl, by simp⟩, fun lk => ?_⟩
  constructor
  · intro hin
    simp at hin
  · rintro ⟨t, -, ht⟩
    exact absurd ht (hnone t)

/-- What holds of a state: between turns only the locks of tasks inside `sleep` are held; a
turn that meets the condition takes and gives up its locks without a panic, and a turn that
does not meet it panics or leaves a process running with its own lock. -/
structure LockLaws (initproc : ι) (s : Kernel ι π) : Prop where
  held : ∃ held, s.locks.Holds held ∧ ∀ lk, lk ∈ held ↔ ∃ t, lk = .tcb t ∧ s.InSleep t
  calls : ∀ op, s.Permitted op → s.Meets initproc op →
    ∃ locks, s.locks.calls (s.calls initproc op) = some locks
  fails : ∀ op, s.Permitted op → ¬ s.Meets initproc op →
    s.locks.calls (s.calls initproc op) = none ∨ KeepsLock initproc s op
  steps : ∀ op, s.Permitted op → s.Meets initproc op →
    (∀ code work, op = .exit code work → s.procs.tasks.running ≠ some initproc) →
    ∃ s', KernelStep initproc s op s'

theorem KernelOk.laws (h : KernelOk initproc s) : LockLaws initproc s := by
  refine ⟨h.locks, fun op hp hmeets => ?_, fun op hp hmeets => h.fails hp hmeets,
    fun op hp hmeets hexit => ?_⟩
  · by_cases hexit : ∀ code work, op = .exit code work → s.procs.tasks.running ≠ some initproc
    · obtain ⟨s', hstep, -⟩ := h.step hp hmeets hexit
      simp only [kernelStep, Option.bind_eq_some_iff] at hstep
      obtain ⟨locks, hlocks, -⟩ := hstep
      exact ⟨locks, hlocks⟩
    · simp only [not_forall, not_not] at hexit
      obtain ⟨code, work, rfl, hrunning⟩ := hexit
      exact ⟨s.locks, by simp [calls, hrunning, callsOf, Locking.exitCurrentAndRunNext, LockTable.calls]⟩
  · obtain ⟨s', hstep, -⟩ := h.step hp hmeets hexit
    exact ⟨s', hp, hstep⟩

/-- In every state of every run whose turns all meet the condition. -/
theorem lockLaws_of_run {links : Links (Node (TaskQueue (WaitQueue π)) (TaskLink ι))}
    {child : Links (Node ι ι)} {hartid : ℕ} {irq : Bool} {buf : ℕ → Byte} {s₀ : Kernel ι π}
    (hboot : boot initproc links child hartid irq buf = some s₀) {ops : List (KernelOp ι π)}
    (hrun : Run (fun s op s' => KernelStep initproc s op s' ∧ s.Meets initproc op) s₀ ops s) :
    LockLaws initproc s := by
  refine (hrun.invariant (I := KernelOk initproc) (fun s op s' hok hstep => ?_)
    (boot_ok hboot)).laws
  obtain ⟨hstep, hmeets⟩ := hstep
  obtain ⟨s'', hrun, hok'⟩ := hok.step hstep.1 hmeets hstep.not_init_exit
  obtain rfl := Option.some.inj (hrun.symm.trans hstep.2)
  exact hok'

instance (s : Kernel ι π) (t : ι) : Decidable (s.InSleep t) := inferInstanceAs (Decidable (_ ∨ _))

instance (s : Kernel ι π) (i : π) : Decidable (s.PipeLive i) := inferInstanceAs (Decidable (_ ∧ _))

instance (s : Kernel ι π) (p : ι) (call : WaitCall) : Decidable (s.WaitMeets p call) :=
  inferInstanceAs (Decidable (_ ∧ _))

instance (s : Kernel ι π) : DecidablePred s.Permitted
  | .dispatch => inferInstanceAs (Decidable (_ = _))
  | .suspend => inferInstanceAs (Decidable (_ = _))
  | .fork .. => inferInstanceAs (Decidable (_ ∧ _))
  | .exit .. => inferInstanceAs (Decidable (_ ∧ _))
  | .waitpid .. => inferInstanceAs (Decidable (_ = _))
  | .pipealloc _ => inferInstanceAs (Decidable (_ ∧ _))
  | .piperead .. => inferInstanceAs (Decidable (_ ∧ _))
  | .pipewrite .. => inferInstanceAs (Decidable (_ ∧ _))
  | .consoleread .. => inferInstanceAs (Decidable (_ = _))
  | .resume _ => decidable_of_iff (∃ p ∈ s.procs.tasks.running, s.InSleep p) Iff.rfl

instance (initproc : ι) (s : Kernel ι π) : DecidablePred (s.Meets initproc)
  | .dispatch => isTrue trivial
  | .suspend => isTrue trivial
  | .fork .. => isTrue trivial
  | .exit .. => inferInstanceAs (Decidable (_ ∨ _))
  | .waitpid .. => inferInstanceAs (Decidable (∀ p ∈ s.procs.tasks.running, s.WaitMeets p _))
  | .pipealloc _ => isTrue trivial
  | .piperead .. => isTrue trivial
  | .pipewrite .. => isTrue trivial
  | .consoleread n _ => inferInstanceAs (Decidable (n ≤ 0))
  | .resume _ => inferInstanceAs
      (Decidable (∀ p ∈ s.procs.tasks.running, ∀ call ∈ s.procs.call p, s.WaitMeets p call))

/-- A turn that is taken where it is permitted and `P` holds. -/
def checkedStep (initproc : ι) (P : Kernel ι π → KernelOp ι π → Prop)
    [∀ s, DecidablePred (P s)] (s : Kernel ι π) (op : KernelOp ι π) : Option (Kernel ι π) :=
  if s.Permitted op ∧ P s op then s.kernelStep initproc op else none

theorem of_checkedStep {P : Kernel ι π → KernelOp ι π → Prop} [∀ s, DecidablePred (P s)]
    {s' : Kernel ι π} {op : KernelOp ι π} (h : checkedStep initproc P s op = some s') :
    KernelStep initproc s op s' ∧ P s op := by
  rw [checkedStep] at h
  split at h
  · next hp => exact ⟨⟨hp.1, h⟩, hp.2⟩
  · cases h

/-- `INITPROC` sleeps on a pipe, its child writes and exits, and `INITPROC` goes on. -/
theorem lockLaws_pipe_and_exit :
    ∃ s₀ s : Kernel Bool Unit,
      boot false ⟨fun _ => none, fun _ => none⟩ ⟨fun _ => none, fun _ => none⟩ 0 true
        (fun _ => 0) = some s₀ ∧
      LockLaws false s ∧ s.procs.tasks.running = none ∧
      s.procs.tasks.status true = .zombie := by
  obtain ⟨s₀, s, hboot, hrun, hobs⟩ := exists_run_of_execute
    (checkedStep (π := Unit) false (Meets false))
    (boot false ⟨fun _ => none, fun _ => none⟩ ⟨fun _ => none, fun _ => none⟩ 0 true fun _ => 0)
    [.dispatch, .pipealloc (), .fork true ⟨1, 1, false, 5⟩,
      .piperead () ⟨true, true, true, fun _ => true⟩, .dispatch,
      .pipewrite () ⟨true, false, true, fun _ => true⟩, .suspend, .dispatch,
      .resume ⟨true, false, true, fun _ => true⟩, .suspend, .dispatch,
      .exit 0 ⟨1, [.pipe () true false], .drop⟩]
    (fun s => (s.procs.tasks.running, s.procs.tasks.status true)) (none, .zombie)
    (by decide +kernel)
  exact ⟨s₀, s, hboot, lockLaws_of_run hboot (hrun.mono fun _ _ _ => of_checkedStep),
    congrArg Prod.fst hobs, congrArg Prod.snd hobs⟩

/-- `INITPROC` waits for its child, which exits. -/
theorem exit_finds_lock_of_sleeper :
    ∃ s₀ s : Kernel Bool Unit,
      boot false ⟨fun _ => none, fun _ => none⟩ ⟨fun _ => none, fun _ => none⟩ 0 true
        (fun _ => 0) = some s₀ ∧
      Run (KernelStep false) s₀
        [.dispatch, .fork true ⟨1, 1, false, 3⟩,
          .waitpid (-1) 0 0 ⟨true, false, true, fun _ => true⟩, .dispatch] s ∧
      s.Permitted (.exit 0 ⟨1, [], .drop⟩) ∧
      s.locks.calls (s.calls false (.exit 0 ⟨1, [], .drop⟩)) = none := by
  obtain ⟨s₀, s, hboot, hrun, hobs⟩ := exists_run_of_execute
    (checkedStep (π := Unit) false fun _ _ => True)
    (boot false ⟨fun _ => none, fun _ => none⟩ ⟨fun _ => none, fun _ => none⟩ 0 true fun _ => 0)
    [.dispatch, .fork true ⟨1, 1, false, 3⟩,
      .waitpid (-1) 0 0 ⟨true, false, true, fun _ => true⟩, .dispatch]
    (fun s => (decide (s.Permitted (.exit 0 ⟨1, [], .drop⟩)),
      (s.locks.calls (s.calls false (.exit 0 ⟨1, [], .drop⟩))).isNone)) (true, true)
    (by decide +kernel)
  exact ⟨s₀, s, hboot, hrun.mono fun _ _ _ h => (of_checkedStep h).1,
    of_decide_eq_true (congrArg Prod.fst hobs),
    Option.isNone_iff_eq_none.mp (congrArg Prod.snd hobs)⟩

end Kernel

end K210Os
