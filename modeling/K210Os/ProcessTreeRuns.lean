import K210Os.ProcessTree
import K210Os.TaskQueueRuns

/-!
# Every process is in the child list of its parent

In every state of every run of `fork`, `exit_current_and_run_next` and `waitpid` that
starts from `INITPROC` alone, and every exit is reported at most once, to the parent.
-/

namespace K210Os

open DoublyLinked Transition

/-- Whether the operation is a round of `waitpid`. -/
def ProcOp.isWaitpid {ι ω : Type*} : ProcOp ι ω → Bool
  | .waitpid .. => true
  | .resume _ => true
  | _ => false

namespace Processes

variable {ι ω : Type*} {initproc p c x : ι} {s s' : Processes ι ω} {cs : ι → List ι}

def Reaped (s : Processes ι ω) (x : ι) : Prop := x ∈ s.reaped.map Prod.snd

/-- A process other than `INITPROC` that has not been reaped. -/
def Unreaped (initproc : ι) (s : Processes ι ω) (x : ι) : Prop :=
  x ∈ s.tasks.known ∧ x ≠ initproc ∧ ¬ s.Reaped x

/-- The invariant: `cs` are the contents of the child lists. -/
structure TreeOk (initproc : ι) (s : Processes ι ω) (cs : ι → List ι) : Prop where
  tasks : s.tasks.TasksOk
  child : Represents s.child (· ∈ s.tasks.known) cs
  mem : ∀ p x, x ∈ cs p ↔ s.Unreaped initproc x ∧ s.parent x = some p
  parent : ∀ x, s.Unreaped initproc x →
    ∃ p ∈ s.tasks.known, s.parent x = some p ∧ s.tasks.status p ≠ .zombie
  root : initproc ∈ s.tasks.known ∧ s.tasks.status initproc ≠ .zombie
  once : (s.reaped.map Prod.snd).Nodup
  zombie : ∀ x, s.Reaped x → x ∈ s.tasks.known ∧ s.tasks.status x = .zombie
  self : ∀ x, s.parent x ≠ some x

theorem TreeOk.known_of_mem (h : TreeOk initproc s cs) (hx : x ∈ cs p) : x ∈ s.tasks.known :=
  ((h.mem p x).mp hx).1.1

theorem TreeOk.running (h : TreeOk initproc s cs) (hp : s.tasks.running = some p) :
    p ∈ s.tasks.known ∧ s.tasks.status p ≠ .zombie := by
  obtain ⟨⟨place, hq⟩, hcur⟩ := h.tasks
  exact ⟨(hq.onWay p hp).2, by simp [(hcur p hp).1]⟩

/-- No child list is longer than there are processes. -/
theorem TreeOk.length_le (h : TreeOk initproc s cs) (p : ι) :
    (cs p).length ≤ s.tasks.known.length :=
  ((h.child.nodup p).subperm fun _ hx => h.known_of_mem hx).length_le

/-- The queues and the statuses change, and no process dies. -/
theorem TreeOk.schedule (h : TreeOk initproc s cs) {tasks : Tasks ι ω} (hok : tasks.TasksOk)
    (hz : Tasks.SameZombies s.tasks tasks) : TreeOk initproc { s with tasks } cs := by
  have hstatus : ∀ x, tasks.status x ≠ .zombie ↔ s.tasks.status x ≠ .zombie := fun x =>
    not_congr (hz.2 x)
  have hun : ∀ x, Unreaped initproc { s with tasks } x ↔ s.Unreaped initproc x := fun x => by
    simp only [Unreaped, Reaped, hz.1]
  refine ⟨hok, by simpa only [hz.1] using h.child, fun p x => ?_, fun x hx => ?_, ?_, h.once,
    fun x hx => ?_, h.self⟩
  · rw [hun]
    exact h.mem p x
  · obtain ⟨p, hp, hpar, hst⟩ := h.parent x ((hun x).mp hx)
    exact ⟨p, by simpa only [hz.1] using hp, hpar, (hstatus p).mpr hst⟩
  · exact ⟨by simpa only [hz.1] using h.root.1, (hstatus initproc).mpr h.root.2⟩
  · obtain ⟨hk, hst⟩ := h.zombie x hx
    exact ⟨by simpa only [hz.1] using hk, (hz.2 x).mpr hst⟩

theorem TreeOk.of_fields (h : TreeOk initproc s cs) (ht : s'.tasks = s.tasks)
    (hc : s'.child = s.child) (hp : s'.parent = s.parent) (hr : s'.reaped = s.reaped) :
    TreeOk initproc s' cs := by
  refine ⟨ht ▸ h.tasks, by simpa only [ht, hc] using h.child, fun p x => ?_, fun x hx => ?_,
    by simpa only [ht] using h.root, by simpa only [hr] using h.once, fun x hx => ?_,
    by simpa only [hp] using h.self⟩
  · simpa only [Unreaped, Reaped, ht, hr, hp] using h.mem p x
  · simp only [Unreaped, Reaped, ht, hr] at hx
    simpa only [ht, hp] using h.parent x hx
  · simp only [Reaped, hr] at hx
    simpa only [ht] using h.zombie x hx

variable [DecidableEq ι]

/-! ## `fork` -/

theorem TreeOk.fork [DecidableEq ω] (h : TreeOk initproc s cs) (hp : s.tasks.running = some p)
    (hc : c ∉ s.tasks.known) :
    ∃ pid s', s.fork p c = some (pid, s') ∧ (∃ cs', TreeOk initproc s' cs') ∧
      s'.reaped = s.reaped := by
  obtain ⟨hknown, hst⟩ := h.running hp
  have hpc : p ≠ c := fun heq => hc (heq ▸ hknown)
  have hnot : ∀ q, c ∉ cs q := fun q hq => hc (h.known_of_mem hq)
  obtain ⟨hinit, -⟩ := h.child.init (h.child.dead c hc)
  obtain ⟨L, hrun, hrep, -⟩ := hinit.append (q := p) (.inr hknown) hnot
  obtain ⟨tasks, hadd, hok, -, hk, hz, -⟩ := h.tasks.add hc
  have hinitc : initproc ≠ c := fun heq => hc (heq ▸ h.root.1)
  have hreaped : ¬ s.Reaped c := fun hr => hc (h.zombie c hr).1
  have hfork : s.fork p c = some (s.pids.pidAlloc.1,
      { s with
        tasks
        child := L
        pids := s.pids.pidAlloc.2
        pid := Function.update s.pid c s.pids.pidAlloc.1
        parent := Function.update s.parent c (some p)
        exitCode := Function.update s.exitCode c 0
        call := Function.update s.call c none }) := by
    simp only [Processes.fork, hrun, hadd, Option.bind_some, Option.map_some]
  refine ⟨_, _, hfork, ⟨Function.update cs p (cs p ++ [c]), ⟨hok, ?_, fun q x => ?_,
    fun x hx => ?_, ?_, h.once, fun x hx => ?_, fun x => ?_⟩⟩, rfl⟩
  · have hlive : (fun x => x ∈ tasks.known) = fun x => x = c ∨ x ∈ s.tasks.known := by
      simp only [hk, List.mem_cons]
    exact hlive ▸ hrep
  · have hold := h.mem q x
    simp only [Unreaped, Reaped, hk, List.mem_cons] at hold hreaped ⊢
    by_cases hx : x = c
    · subst hx
      by_cases hq : q = p
      · subst hq
        simp [hinitc.symm, hreaped]
      · simp [hq, hnot q, Ne.symm hq]
    · by_cases hq : q = p
      · subst hq
        simp [hx, hold]
      · simp [hx, hq, hold]
  · simp only [Unreaped, Reaped, hk, List.mem_cons] at hx
    by_cases hxc : x = c
    · subst hxc
      exact ⟨p, by simp [hk, hknown], by simp, fun hzp => hst ((hz p).mp hzp)⟩
    · obtain ⟨q, hq, hpar, hstq⟩ := h.parent x ⟨hx.1.resolve_left hxc, hx.2⟩
      exact ⟨q, by simp [hk, hq], by simpa [hxc] using hpar, fun hzq => hstq ((hz q).mp hzq)⟩
  · exact ⟨by simp [hk, h.root.1], fun hzi => h.root.2 ((hz _).mp hzi)⟩
  · obtain ⟨hx, hzx⟩ := h.zombie x hx
    exact ⟨by simp [hk, hx], (hz x).mpr hzx⟩
  · by_cases hxc : x = c
    · simp [hxc, hpc]
    · simpa [hxc] using h.self x

/-! ## `exit_current_and_run_next` -/

/-- One child is handed over to `INITPROC`. -/
theorem TreeOk.adoptOne (h : TreeOk initproc s cs) (hp : p ≠ initproc) {xs : List ι}
    (hcs : cs p = x :: xs) :
    ∃ L L' cs', s.child.listPop p = some (x, L) ∧ L.listAppend initproc x = some L' ∧
      TreeOk initproc
        { s with
          child := L'
          parent := Function.update s.parent x (some initproc) } cs' ∧ cs' p = xs := by
  obtain ⟨L, hpop, hrep, -, -, -⟩ := h.child.pop hcs
  have hnodup := h.child.nodup p
  rw [hcs, List.nodup_cons] at hnodup
  have hx : x ∈ cs p := by simp [hcs]
  have hnot : ∀ q, x ∉ Function.update cs p xs q := by
    intro q
    by_cases hq : q = p
    · subst hq
      simpa using hnodup.1
    · rw [Function.update_of_ne hq]
      exact fun hin => hq (h.child.disjoint q p x hin hx)
  obtain ⟨L', happ, hrep', -⟩ := hrep.append (q := initproc) h.root.1 hnot
  rw [Function.update_of_ne hp.symm] at hrep'
  refine ⟨L, L', _, hpop, happ, ⟨h.tasks, hrep', fun q y => ?_, fun y hy => ?_, h.root, h.once,
    h.zombie, fun y => ?_⟩, by rw [Function.update_of_ne hp, Function.update_self]⟩
  · have hold := h.mem q y
    simp only [Unreaped, Reaped] at hold ⊢
    by_cases hy : y = x
    · subst hy
      have hun := ((h.mem p y).mp hx).1
      simp only [Unreaped, Reaped] at hun
      by_cases hq : q = initproc
      · subst hq
        simp [hun]
      · rw [Function.update_of_ne hq]
        simp [hnot q, Ne.symm hq]
    · by_cases hq : q = initproc
      · subst hq
        simp [hy, hold]
      · rw [Function.update_of_ne hq]
        by_cases hqp : q = p
        · subst hqp
          simpa [hy, hcs] using hold
        · simpa [hy, hqp] using hold
  · by_cases hyx : y = x
    · subst hyx
      exact ⟨initproc, h.root.1, by simp, h.root.2⟩
    · simpa [hyx] using h.parent y hy
  · by_cases hyx : y = x
    · subst hyx
      have hroot : y ≠ initproc := ((h.mem p y).mp hx).1.2.1
      simp [hroot.symm]
    · simpa [hyx] using h.self y

theorem TreeOk.adopt {fuel : ℕ} (h : TreeOk initproc s cs) (hp : p ≠ initproc)
    (hknown : p ∈ s.tasks.known) (hfuel : (cs p).length < fuel) :
    ∃ s' cs', Processes.adopt initproc p fuel s = some s' ∧ TreeOk initproc s' cs' ∧
      cs' p = [] ∧ s'.tasks = s.tasks ∧ s'.reaped = s.reaped ∧ s'.call = s.call ∧
      s'.pid = s.pid ∧ ∀ x q, s'.parent x = some q →
        s.parent x = some q ∨ q = initproc ∧ s.parent x = some p := by
  induction hcs : cs p generalizing s cs fuel with
  | nil =>
      obtain ⟨fuel, rfl⟩ := Nat.exists_eq_add_one_of_ne_zero (by omega : fuel ≠ 0)
      exact ⟨s, cs, by rw [Processes.adopt, if_pos ((h.child.listEmpty_iff hknown).mpr hcs)], h,
        hcs, rfl, rfl, rfl, rfl, fun _ _ => .inl⟩
  | cons x xs ih =>
      obtain ⟨fuel, rfl⟩ := Nat.exists_eq_add_one_of_ne_zero (by omega : fuel ≠ 0)
      have hne : s.child.listEmpty p = false := by
        by_contra hempty
        have hnil := (h.child.listEmpty_iff hknown).mp (by simpa using hempty)
        rw [hcs] at hnil
        cases hnil
      obtain ⟨L, L', cs₁, hpop, happ, h₁, hxs⟩ := h.adoptOne hp hcs
      rw [hcs, List.length_cons] at hfuel
      have hshort : (cs₁ p).length < fuel := by
        rw [hxs]
        omega
      obtain ⟨s', cs', hrun, h', hnil, ht, hr, hc, hpid, hpar⟩ := ih h₁ hknown hshort hxs
      have hx : s.parent x = some p := ((h.mem p x).mp (by simp [hcs])).2
      refine ⟨s', cs', ?_, h', hnil, ht, hr, hc, hpid, fun y q hy => ?_⟩
      · rw [Processes.adopt, hne]
        simp only [Bool.false_eq_true, if_false, hpop, Option.bind_some, happ]
        exact hrun
      · have hstep := hpar y q hy
        by_cases hyx : y = x
        · subst hyx
          simp only [Function.update_self, Option.some.injEq] at hstep
          rcases hstep with hq | ⟨-, hq⟩
          · exact .inr ⟨hq.symm, hx⟩
          · exact absurd hq.symm hp
        · simpa only [Function.update_of_ne hyx] using hstep

theorem TreeOk.exit [DecidableEq ω] (h : TreeOk initproc s cs) (hp : s.tasks.running = some p)
    (hne : p ≠ initproc) (exitCode : BitVec 32) {closed : List (TaskQueue ω)}
    (hclosed : ∀ q ∈ closed, q.isWait = true ∧ s.tasks.live q = true) :
    ∃ s', exitCurrentAndRunNext initproc s p exitCode closed = some s' ∧
      (∃ cs', TreeOk initproc s' cs') ∧ s'.reaped = s.reaped := by
  obtain ⟨hknown, hst⟩ := h.running hp
  have hlen := h.length_le p
  have h₀ : TreeOk initproc { s with exitCode := Function.update s.exitCode p exitCode } cs :=
    h.of_fields rfl rfl rfl rfl
  obtain ⟨s₁, cs₁, hadopt, h₁, hnil, ht, hr, -⟩ := h₀.adopt hne hknown (by omega :
    (cs p).length < s.tasks.known.length + 1)
  have hreaped : ¬ s₁.Reaped p := fun hin => by
    have hzp := (h₁.zombie p hin).2
    rw [ht] at hzp
    exact hst hzp
  obtain ⟨parent, -, hpar, -⟩ := h₁.parent p ⟨by rwa [ht], hne, hreaped⟩
  obtain ⟨tasks, hrun, hok, hk, hz, -⟩ := h.tasks.exit hp parent closed hclosed
  have hk₁ : tasks.known = s₁.tasks.known := by rw [hk, ht]
  have hz₁ : ∀ u, tasks.status u = .zombie ↔ u = p ∨ s₁.tasks.status u = .zombie := fun u => by
    rw [hz, ht]
  have hrun₁ : s₁.tasks.exitCurrentAndRunNext p parent closed = some tasks := by rwa [ht]
  refine ⟨{ s₁ with tasks }, ?_, ⟨cs₁, hok, by simpa only [hk₁] using h₁.child, fun q x => ?_,
    fun x hx => ?_, ⟨by rw [hk₁]; exact h₁.root.1, fun hzi => ?_⟩, h₁.once, fun x hx => ?_,
    h₁.self⟩, hr⟩
  · simp [exitCurrentAndRunNext, hne, hadopt, hpar, hrun₁]
  · have hmem := h₁.mem q x
    simpa only [Unreaped, Reaped, hk₁] using hmem
  · simp only [Unreaped, Reaped, hk₁] at hx
    obtain ⟨q, hq, hpq, hzq⟩ := h₁.parent x hx
    refine ⟨q, by rwa [hk₁], hpq, fun hzombie => ?_⟩
    rcases (hz₁ q).mp hzombie with rfl | hzq'
    · have hin := (h₁.mem q x).mpr ⟨hx, hpq⟩
      rw [hnil] at hin
      cases hin
    · exact hzq hzq'
  · exact ((hz₁ initproc).mp hzi).elim (fun heq => hne heq.symm) h₁.root.2
  · obtain ⟨hx', hzx⟩ := h₁.zombie x hx
    exact ⟨by rwa [hk₁], (hz₁ x).mpr (.inr hzx)⟩

/-! ## `waitpid` -/

/-- The scan ends, at the first zombie that is wanted or behind the last child. -/
theorem scan_eq {a : Node ι ι} {xs : List ι} {pid : BitVec 64} {fuel : ℕ} (flag : Bool)
    (hl : Linked s.child a (xs.map .elem) (.tail p)) (hfuel : xs.length < fuel) :
    ∃ found flag', ((s.child.next a).bind fun elem => s.scan p pid fuel elem flag) =
        some (found, flag') ∧
      (∀ c, found = some c → c ∈ xs ∧ s.Wanted pid c ∧ s.tasks.status c = .zombie) ∧
      (found = none → ∀ c ∈ xs, s.Wanted pid c → s.tasks.status c ≠ .zombie) := by
  induction xs generalizing a fuel flag with
  | nil =>
      obtain ⟨fuel, rfl⟩ := Nat.exists_eq_add_one_of_ne_zero (by omega : fuel ≠ 0)
      exact ⟨none, flag, by rw [hl.1]; simp [scan], by simp⟩
  | cons x xs ih =>
      obtain ⟨fuel, rfl⟩ := Nat.exists_eq_add_one_of_ne_zero (by omega : fuel ≠ 0)
      obtain ⟨hn, -, hl⟩ := hl
      rw [List.length_cons] at hfuel
      simp only [hn, Option.bind_some, scan, if_neg (by simp : Node.elem x ≠ Node.tail p)]
      by_cases hw : s.Wanted pid x
      · by_cases hz : s.tasks.status x = .zombie
        · exact ⟨some x, true, by simp [hw, hz], fun c hc => by
            obtain rfl := Option.some.inj hc
            exact ⟨by simp, hw, hz⟩, by simp⟩
        · obtain ⟨found, flag', hrun, hfound, hnone⟩ := ih true hl (by omega : xs.length < fuel)
          exact ⟨found, flag', by simpa [hw, hz] using hrun, fun c hc =>
            ⟨List.mem_cons_of_mem _ (hfound c hc).1, (hfound c hc).2⟩, fun hn =>
            List.forall_mem_cons.mpr ⟨fun _ => hz, hnone hn⟩⟩
      · obtain ⟨found, flag', hrun, hfound, hnone⟩ := ih flag hl (by omega : xs.length < fuel)
        exact ⟨found, flag', by simpa [hw] using hrun, fun c hc =>
          ⟨List.mem_cons_of_mem _ (hfound c hc).1, (hfound c hc).2⟩, fun hn =>
          List.forall_mem_cons.mpr ⟨fun hw' => absurd hw' hw, hnone hn⟩⟩

theorem TreeOk.scanChildren (h : TreeOk initproc s cs) (hp : p ∈ s.tasks.known)
    (call : WaitCall) :
    ∃ found flag, s.scanChildren p call = some (found, flag) ∧
      (∀ c, found = some c → c ∈ cs p ∧ s.Wanted call.pid c ∧ s.tasks.status c = .zombie) ∧
      (found = none → ∀ c ∈ cs p, s.Wanted call.pid c → s.tasks.status c ≠ .zombie) :=
  scan_eq call.flag (h.child.linked p hp) (Nat.lt_succ_of_le (h.length_le p))

/-- The zombie `x` is taken out of the list of its parent. -/
theorem TreeOk.reap (h : TreeOk initproc s cs) (hx : x ∈ cs p)
    (hz : s.tasks.status x = .zombie) :
    ∃ L cs', s.child.remove (.elem x) = some L ∧
      TreeOk initproc { s with child := L, reaped := (p, x) :: s.reaped } cs' := by
  obtain ⟨xs, ys, hcs⟩ := List.append_of_mem hx
  obtain ⟨L, hrun, hrep, -⟩ := h.child.remove hcs
  have hun := ((h.mem p x).mp hx).1
  have hnodup := h.child.nodup p
  have hperm : (cs p).Perm (x :: (xs ++ ys)) := by
    rw [hcs]
    exact List.perm_middle
  rw [hperm.nodup_iff, List.nodup_cons] at hnodup
  refine ⟨L, _, hrun, h.tasks, hrep, fun q y => ?_, fun y hy => ?_, h.root, ?_, fun y hy => ?_,
    h.self⟩
  · have hold := h.mem q y
    simp only [Unreaped, Reaped, List.map_cons, List.mem_cons] at hold ⊢
    by_cases hyx : y = x
    · subst hyx
      have hnot : y ∉ Function.update cs p (xs ++ ys) q := by
        by_cases hq : q = p
        · subst hq
          simpa using hnodup.1
        · rw [Function.update_of_ne hq]
          exact fun hin => hq (h.child.disjoint q p y hin hx)
      simp [hnot]
    · by_cases hq : q = p
      · subst hq
        rw [hperm.mem_iff, List.mem_cons] at hold
        simpa [hyx] using hold
      · simpa [hq, hyx] using hold
  · simp only [Unreaped, Reaped, List.map_cons, List.mem_cons, not_or] at hy
    exact h.parent y ⟨hy.1, hy.2.1, hy.2.2.2⟩
  · exact List.nodup_cons.mpr ⟨hun.2.2, h.once⟩
  · rcases List.mem_cons.mp hy with rfl | hy
    · exact ⟨hun.1, hz⟩
    · exact h.zombie y hy

/-- What a step reports: nothing, or the exit of a zombie to the running process, which is
its parent. -/
def Reports (s : Processes ι ω) (op : ProcOp ι ω) (r : Option (BitVec 64))
    (s' : Processes ι ω) : Prop :=
  s'.reaped = s.reaped ∧ (op.isWaitpid = true → r = none ∨ r = some (-1) ∨ r = some 0) ∨
    op.isWaitpid = true ∧ ∃ p x, s.tasks.running = some p ∧ s.parent x = some p ∧
      s.tasks.status x = .zombie ∧ r = some (s.pid x) ∧ s'.reaped = (p, x) :: s.reaped

theorem TreeOk.waitRound [DecidableEq ω] (h : TreeOk initproc s cs)
    (hp : s.tasks.running = some p) (call : WaitCall) (copied : Bool) {op : ProcOp ι ω}
    (hop : op.isWaitpid = true) :
    ∃ r s', s.waitRound p call copied = some (r, s') ∧ (∃ cs', TreeOk initproc s' cs') ∧
      Reports s op r s' := by
  obtain ⟨hknown, hst⟩ := h.running hp
  obtain ⟨found, flag, hscan, hfound, -⟩ := h.scanChildren hknown call
  simp only [Processes.waitRound, hscan, Option.bind_some]
  have hdone : TreeOk initproc { s with call := Function.update s.call p none } cs :=
    h.of_fields rfl rfl rfl rfl
  cases found with
  | some x =>
      obtain ⟨hx, -, hz⟩ := hfound x rfl
      have hcode : TreeOk initproc
          { s with
            call := Function.update s.call p none
            exitCode := Function.update s.exitCode x (s.exitCode x <<< 8) } cs :=
        h.of_fields rfl rfl rfl rfl
      obtain ⟨L, cs', hrun, h'⟩ := hcode.reap hx hz
      by_cases hfail : call.codeExitAddr ≠ 0 ∧ copied = false
      · exact ⟨some (-1), _, by simp only [report, if_pos hfail, Option.map_some], ⟨cs, hcode⟩,
          .inl ⟨rfl, fun _ => .inr (.inl rfl)⟩⟩
      · exact ⟨some (s.pid x), _, by simp only [report, if_neg hfail, hrun, Option.map_some],
          ⟨cs', h'⟩, .inr ⟨hop, p, x, hp, ((h.mem p x).mp hx).2, hz, rfl, rfl⟩⟩
  | none =>
      by_cases hend : flag = false ∨ s.tasks.status p = .zombie
      · exact ⟨some (-1), _, by simp only [if_pos hend], ⟨cs, hdone⟩,
          .inl ⟨rfl, fun _ => .inr (.inl rfl)⟩⟩
      · by_cases hopt : call.options = 0
        · obtain ⟨place, hq⟩ := h.tasks.1
          obtain ⟨tasks, hrun, hok, hz, -⟩ := h.tasks.sleep hp (q := .sleepVec) ⟨rfl, hq.boot.2.1⟩
          have hasleep : TreeOk initproc
              { s with
                tasks
                call := Function.update s.call p (some { call with flag }) } cs :=
            (h.schedule hok hz).of_fields rfl rfl rfl rfl
          exact ⟨none, _, by simp only [if_neg hend, if_pos hopt, hrun, Option.map_some],
            ⟨cs, hasleep⟩, .inl ⟨rfl, fun _ => .inl rfl⟩⟩
        · exact ⟨some 0, _, by simp only [if_neg hend, if_neg hopt], ⟨cs, hdone⟩,
            .inl ⟨rfl, fun _ => .inr (.inr rfl)⟩⟩

/-! ## Steps and runs -/

omit [DecidableEq ι] in
theorem running_of_current (h : s.current = some p) : s.tasks.running = some p := by
  simp only [current, Option.bind_eq_some_iff, Option.ite_none_right_eq_some] at h
  obtain ⟨q, hq, -, hqp⟩ := h
  rwa [← Option.some.inj hqp]

variable [DecidableEq ω]

/-- Every operation that can come is carried out, an exit of `INITPROC` apart. -/
theorem TreeOk.step (h : TreeOk initproc s cs) {op : ProcOp ι ω} (hp : s.Permitted op)
    (hexit : ∀ code closed, op = .exit code closed → s.tasks.running ≠ some initproc) :
    ∃ r s', procStep initproc s op = some (r, s') ∧ (∃ cs', TreeOk initproc s' cs') ∧
      Reports s op r s' := by
  have hquiet : ∀ {r s'}, op.isWaitpid = false → s'.reaped = s.reaped → Reports s op r s' :=
    fun hop hr => .inl ⟨hr, by simp [hop]⟩
  cases op with
  | init w =>
      obtain ⟨hok, hz, -⟩ := h.tasks.init hp
      exact ⟨none, _, rfl, ⟨cs, h.schedule hok hz⟩, hquiet rfl rfl⟩
  | dispatch =>
      obtain ⟨tasks, hrun, hok, hz, -⟩ := h.tasks.run hp
      exact ⟨none, { s with tasks }, by simp [procStep, Processes.schedule, hrun],
        ⟨cs, h.schedule hok hz⟩, hquiet rfl rfl⟩
  | suspend =>
      obtain ⟨p, hcur⟩ := Option.isSome_iff_exists.mp hp
      obtain ⟨tasks, hrun, hok, hz, -⟩ := h.tasks.suspend (running_of_current hcur)
      exact ⟨none, { s with tasks }, by simp [procStep, Processes.schedule, hcur, hrun],
        ⟨cs, h.schedule hok hz⟩, hquiet rfl rfl⟩
  | sleep w =>
      obtain ⟨p, hcur⟩ := Option.isSome_iff_exists.mp hp.1
      obtain ⟨tasks, hrun, hok, hz, -⟩ := h.tasks.sleep (running_of_current hcur) ⟨rfl, hp.2⟩
      exact ⟨none, { s with tasks }, by simp [procStep, Processes.schedule, hcur, hrun],
        ⟨cs, h.schedule hok hz⟩, hquiet rfl rfl⟩
  | wakeupFromwq w =>
      obtain ⟨tasks, hrun, hok, -, hz, -⟩ := h.tasks.wakeupFromwq rfl hp
      exact ⟨none, { s with tasks }, by simp [procStep, Processes.schedule, hrun],
        ⟨cs, h.schedule hok hz⟩, hquiet rfl rfl⟩
  | fork c =>
      obtain ⟨p, hcur⟩ := Option.isSome_iff_exists.mp hp.1
      obtain ⟨pid, s', hrun, hok, hr⟩ := h.fork (running_of_current hcur) hp.2
      exact ⟨some pid, s', by simp [procStep, hcur, hrun], hok, hquiet rfl hr⟩
  | exit code closed =>
      obtain ⟨p, hcur⟩ := Option.isSome_iff_exists.mp hp.1
      have hrunning := running_of_current hcur
      have hne : p ≠ initproc := by
        rintro rfl
        exact hexit code closed rfl hrunning
      obtain ⟨s', hrun, hok, hr⟩ := h.exit hrunning hne code hp.2
      exact ⟨none, s', by simp [procStep, hcur, hrun], hok, hquiet rfl hr⟩
  | waitpid pid addr options copied =>
      obtain ⟨p, hcur⟩ := Option.isSome_iff_exists.mp hp
      obtain ⟨r, s', hrun, hok, hrep⟩ := h.waitRound (running_of_current hcur)
        ⟨pid, addr, options, false⟩ copied (rfl : (ProcOp.waitpid pid addr options copied :
          ProcOp ι ω).isWaitpid = true)
      exact ⟨r, s', by simp [procStep, hcur, hrun], hok, hrep⟩
  | resume copied =>
      obtain ⟨p, call, hrunning, hcall⟩ := hp
      obtain ⟨r, s', hrun, hok, hrep⟩ := h.waitRound hrunning call copied
        (rfl : (ProcOp.resume copied : ProcOp ι ω).isWaitpid = true)
      exact ⟨r, s', by simp [procStep, hrunning, hcall, hrun], hok, hrep⟩

theorem addInitproc_ok (initproc : ι) (links : Links (Node (TaskQueue ω) (TaskLink ι)))
    (child : Links (Node ι ι)) :
    ∃ s, addInitproc initproc links child = some s ∧ TreeOk initproc s fun _ => [] := by
  obtain ⟨tasks, hrun, hok, -, hk, hz, -⟩ :=
    (Tasks.tmInit_ok links).add (t := initproc) (by simp [Tasks.tmInit, Tasks.listInit])
  have hknown : tasks.known = [initproc] := by simpa [Tasks.tmInit, Tasks.listInit] using hk
  have hnone : Represents child (fun _ : ι => False) fun _ => ([] : List ι) :=
    ⟨fun _ hf => hf.elim, fun _ _ => rfl, by simp, by simp⟩
  refine ⟨_, by simp only [addInitproc, hrun, Option.map_some]; rfl, hok, ?_, ?_, ?_, ?_, ?_, ?_,
    by simp⟩
  · have hlive : (fun x => x ∈ tasks.known) = fun x => x = initproc ∨ False := by simp [hknown]
    exact hlive ▸ (hnone.init (q := initproc) rfl).1
  · intro p x
    simp [Unreaped]
  · intro x hx
    exact absurd (by simpa [hknown] using hx.1) hx.2.1
  · exact ⟨by simp [hknown], by simp [hz, Tasks.tmInit, Tasks.listInit]⟩
  · exact List.nodup_nil
  · intro x hx
    simp [Reaped] at hx

/-- What holds of a state. -/
structure TreeLaws (initproc : ι) (s : Processes ι ω) : Prop where
  lists : ∃ cs, Represents s.child (· ∈ s.tasks.known) cs ∧
    (∀ x, s.Unreaped initproc x →
      ∃ p, s.parent x = some p ∧ s.tasks.status p ≠ .zombie ∧ ∀ q, x ∈ cs q ↔ q = p) ∧
    ∀ x, s.Reaped x → ∀ q, x ∉ cs q
  once : (s.reaped.map Prod.snd).Nodup
  reports : ∀ op r s', ProcStep initproc s (op, r) s' → Reports s op r s'
  steps : ∀ op, s.Permitted op →
    (∀ code closed, op = .exit code closed → s.tasks.running ≠ some initproc) →
    ∃ r s', ProcStep initproc s (op, r) s'

/-- A step that was taken is not an exit of `INITPROC`. -/
theorem ProcStep.not_init_exit {op : ProcOp ι ω} {r : Option (BitVec 64)}
    (h : ProcStep initproc s (op, r) s') :
    ∀ code closed, op = .exit code closed → s.tasks.running ≠ some initproc := by
  rintro code closed rfl hrunning
  obtain ⟨⟨hcur, -⟩, hstep⟩ := h
  obtain ⟨p, hcur⟩ := Option.isSome_iff_exists.mp hcur
  obtain rfl := Option.some.inj ((running_of_current hcur).symm.trans hrunning)
  simp [procStep, hcur, exitCurrentAndRunNext] at hstep

theorem TreeOk.of_step (h : TreeOk initproc s cs) {l : ProcOp ι ω × Option (BitVec 64)}
    (hstep : ProcStep initproc s l s') :
    (∃ cs', TreeOk initproc s' cs') ∧ Reports s l.1 l.2 s' := by
  obtain ⟨r, s'', hrun, hok, hrep⟩ := h.step hstep.1 hstep.not_init_exit
  obtain ⟨rfl, rfl⟩ := Prod.mk.inj (Option.some.inj (hrun.symm.trans hstep.2))
  exact ⟨hok, hrep⟩

theorem TreeOk.laws (h : TreeOk initproc s cs) : TreeLaws initproc s := by
  refine ⟨⟨cs, h.child, fun x hx => ?_, fun x hx q hin => ?_⟩, h.once, fun op r s' hstep => ?_,
    fun op hp hexit => ?_⟩
  · obtain ⟨p, -, hpar, hst⟩ := h.parent x hx
    refine ⟨p, hpar, hst, fun q => (h.mem q x).trans ?_⟩
    simp [hx, hpar, eq_comm]
  · exact ((h.mem q x).mp hin).1.2.2 hx
  · exact (h.of_step hstep).2
  · obtain ⟨r, s', hrun, -⟩ := h.step hp hexit
    exact ⟨r, s', hp, hrun⟩

/-- In every state of every run that starts from `INITPROC` alone. -/
theorem treeLaws_of_run {links : Links (Node (TaskQueue ω) (TaskLink ι))}
    {child : Links (Node ι ι)} {s₀ : Processes ι ω}
    (hinit : addInitproc initproc links child = some s₀)
    {ls : List (ProcOp ι ω × Option (BitVec 64))} (hrun : Run (ProcStep initproc) s₀ ls s) :
    TreeLaws initproc s := by
  obtain ⟨s₁, hinit₁, hok₁⟩ := addInitproc_ok initproc links child
  obtain rfl := Option.some.inj (hinit₁.symm.trans hinit)
  obtain ⟨cs, hok⟩ := hrun.invariant (I := fun s => ∃ cs, TreeOk initproc s cs)
    (fun _ _ _ ⟨_, hok⟩ hstep => (hok.of_step hstep).1) ⟨_, hok₁⟩
  exact hok.laws

/-- `INITPROC` forks and waits, and is woken by the exit of its child, which it reaps. -/
theorem treeLaws_fork_exit_wait :
    ∃ s₀ s, addInitproc false ⟨fun _ => none, fun _ => none⟩ ⟨fun _ => none, fun _ => none⟩ =
        some (s₀ : Processes Bool Empty) ∧
      Run (ProcStep false) s₀
        [(.dispatch, none), (.fork true, some 2), (.waitpid (-1) 0 0 true, none),
          (.dispatch, none), (.exit 7 [], none), (.dispatch, none), (.resume true, some 2)] s ∧
      TreeLaws false s := by
  have hrun : ∃ s₀ s,
      addInitproc false ⟨fun _ => none, fun _ => none⟩ ⟨fun _ => none, fun _ => none⟩ =
        some (s₀ : Processes Bool Empty) ∧
      Run (ProcStep false) s₀
        [(.dispatch, none), (.fork true, some 2), (.waitpid (-1) 0 0 true, none),
          (.dispatch, none), (.exit 7 [], none), (.dispatch, none), (.resume true, some 2)] s :=
    ⟨_, _, rfl, .step ⟨rfl, rfl⟩ <| .step ⟨⟨rfl, show true ∉ [false] by decide⟩, rfl⟩ <|
      .step ⟨rfl, rfl⟩ <| .step ⟨rfl, rfl⟩ <| .step ⟨⟨rfl, by simp⟩, rfl⟩ <|
      .step ⟨rfl, rfl⟩ <| .single ⟨⟨false, _, rfl, rfl⟩, rfl⟩⟩
  obtain ⟨s₀, s, hinit, hrun⟩ := hrun
  exact ⟨s₀, s, hinit, hrun, treeLaws_of_run hinit hrun⟩

end Processes

end K210Os
