import K210Os.TaskQueues
import Mathlib.Data.List.Perm.Subperm

/-!
# Every task is in the queue that its status names

Along every run of the task operations a task is linked at most once: in the ready queue
when it is ready, in one wait queue when it sleeps, and nowhere when it runs or is a
zombie. Every operation that can come is carried out.
-/

namespace K210Os

open DoublyLinked Transition

namespace Tasks

variable {ι ω : Type*} {L L' : Links (Node (TaskQueue ω) (TaskLink ι))}
  {live : TaskQueue ω → Bool} {place : ι → Option (TaskQueue ω)} {onAll onAll' busy : ι → Prop}
  {q : TaskQueue ω} {t : ι} {s s' : Tasks ι ω} {st : TaskStatus}

/-- The links hold every tag in the queue that `place` gives, and in `all_task` the tasks
of `onAll`. -/
def Placed (L : Links (Node (TaskQueue ω) (TaskLink ι))) (live : TaskQueue ω → Bool)
    (place : ι → Option (TaskQueue ω)) (onAll : ι → Prop) : Prop :=
  ∃ c, Represents L (live · = true) c ∧ (∀ q t, .tag t ∈ c q ↔ place t = some q) ∧
    (∀ q t, .all t ∈ c q ↔ q = .allTask ∧ onAll t) ∧ ∀ t, place t ≠ some .allTask

def Cleared (L : Links (Node (TaskQueue ω) (TaskLink ι))) (t : ι) : Prop :=
  L.next (.elem (.tag t)) = none ∧ L.prev (.elem (.tag t)) = none

/-- The tags that are in no queue keep their links, that of `t` apart. -/
def Kept (place : ι → Option (TaskQueue ω)) (t : ι)
    (L L' : Links (Node (TaskQueue ω) (TaskLink ι))) : Prop :=
  ∀ u, u ≠ t → place u = none → Cleared L u → Cleared L' u

/-- Where a task is that the CPU does not execute. -/
inductive TaskAt : TaskStatus → Option (TaskQueue ω) → Prop
  | ready : TaskAt .ready (some .ready)
  | sleeping (q : TaskQueue ω) : q.isWait = true → TaskAt .sleeping (some q)
  | zombie : TaskAt .zombie none

theorem Placed.congr (h : Placed L live place onAll) (hon : ∀ t, onAll' t ↔ onAll t) :
    Placed L live place onAll' := by
  rwa [show onAll' = onAll from funext fun t => propext (hon t)]

theorem TaskQueue.ne_allTask (h : q.isWait = true) : q ≠ .allTask := by
  rintro rfl
  cases h

/-! ## The queues -/

theorem kept_of_othersKept {c : TaskQueue ω → List (TaskLink ι)} {x : TaskLink ι}
    (hx : ∀ u, u ≠ t → TaskLink.tag u ≠ x) (hmem : ∀ q u, .tag u ∈ c q ↔ place u = some q)
    (h : OthersKept c x L L') : Kept place t L L' := fun u hu hnone hc => by
  obtain ⟨hn, hp⟩ := h (.tag u) (hx u hu) fun q hq => by simp [(hmem q u).mp hq] at hnone
  exact ⟨hn.trans hc.1, hp.trans hc.2⟩

section
variable [DecidableEq ι] [DecidableEq ω]

/-- A tag was put into a queue. -/
theorem placed_put {c : TaskQueue ω → List (TaskLink ι)} {zs : List (TaskLink ι)}
    (hrep : Represents L' (live · = true) (Function.update c q zs))
    (hzs : ∀ x, x ∈ zs ↔ x = .tag t ∨ x ∈ c q)
    (hmem : ∀ q t, .tag t ∈ c q ↔ place t = some q)
    (hall : ∀ q t, .all t ∈ c q ↔ q = .allTask ∧ onAll t) (hno : ∀ t, place t ≠ some .allTask)
    (hne : q ≠ .allTask) (ht : place t = none) :
    Placed L' live (Function.update place t (some q)) onAll := by
  refine ⟨_, hrep, fun q' u => ?_, fun q' u => ?_, fun u => ?_⟩
  · by_cases hq' : q' = q <;> by_cases hu : u = t
    · subst hq' hu
      simp [hzs]
    · subst hq'
      simp [hzs, hu, hmem]
    · subst hu
      rw [Function.update_of_ne hq', hmem, ht, Function.update_self]
      simp [Ne.symm hq']
    · rw [Function.update_of_ne hq', Function.update_of_ne hu, hmem]
  · by_cases hq' : q' = q
    · subst hq'
      simp [hzs, hall]
    · rw [Function.update_of_ne hq', hall]
  · by_cases hu : u = t
    · subst hu
      simpa using hne
    · rw [Function.update_of_ne hu]
      exact hno u

/-- A tag was taken out of its queue. -/
theorem placed_take {c : TaskQueue ω → List (TaskLink ι)} {xs ys : List (TaskLink ι)}
    (hrep : Represents L' (live · = true) (Function.update c q (xs ++ ys)))
    (hc : c q = xs ++ .tag t :: ys) (hnodup : (c q).Nodup)
    (hmem : ∀ q t, .tag t ∈ c q ↔ place t = some q)
    (hall : ∀ q t, .all t ∈ c q ↔ q = .allTask ∧ onAll t) (hno : ∀ t, place t ≠ some .allTask) :
    Placed L' live (Function.update place t none) onAll := by
  have hperm : (c q).Perm (.tag t :: (xs ++ ys)) := by
    rw [hc]
    exact List.perm_middle
  have hfresh : .tag t ∉ xs ++ ys := (List.nodup_cons.mp (hperm.nodup_iff.mp hnodup)).1
  have hzs : ∀ x, x ∈ c q ↔ x = .tag t ∨ x ∈ xs ++ ys := fun x => by
    rw [hperm.mem_iff, List.mem_cons]
  refine ⟨_, hrep, fun q' u => ?_, fun q' u => ?_, fun u => ?_⟩
  · by_cases hq' : q' = q <;> by_cases hu : u = t
    · subst hq' hu
      simpa using hfresh
    · subst hq'
      rw [Function.update_self, Function.update_of_ne hu, ← hmem, hzs]
      simp [hu]
    · subst hu
      have hq : place u = some q := (hmem q u).mp ((hzs _).mpr (.inl rfl))
      rw [Function.update_of_ne hq', hmem, hq, Function.update_self]
      simp [Ne.symm hq']
    · rw [Function.update_of_ne hq', Function.update_of_ne hu, hmem]
  · by_cases hq' : q' = q
    · subst hq'
      rw [Function.update_self, ← hall, hzs]
      simp
    · rw [Function.update_of_ne hq', hall]
  · by_cases hu : u = t
    · subst hu
      simp
    · rw [Function.update_of_ne hu]
      exact hno u

theorem Placed.append (h : Placed L live place onAll) (hq : live q = true) (hne : q ≠ .allTask)
    (ht : place t = none) :
    ∃ L', L.listAppend q (.tag t) = some L' ∧
      Placed L' live (Function.update place t (some q)) onAll ∧ Kept place t L L' := by
  obtain ⟨c, hrep, hmem, hall, hno⟩ := h
  obtain ⟨L', hrun, hrep', hkept⟩ := hrep.append (q := q) (i := .tag t) hq fun q' hin => by
    simp [(hmem q' t).mp hin] at ht
  refine ⟨L', hrun, placed_put hrep' (fun x => ?_) hmem hall hno hne ht,
    kept_of_othersKept (fun u hu heq => hu (TaskLink.tag.inj heq)) hmem hkept⟩
  simp [or_comm]

theorem Placed.push (h : Placed L live place onAll) (hq : live q = true) (hne : q ≠ .allTask)
    (ht : place t = none) :
    ∃ L', L.listPush q (.tag t) = some L' ∧
      Placed L' live (Function.update place t (some q)) onAll ∧ Kept place t L L' := by
  obtain ⟨c, hrep, hmem, hall, hno⟩ := h
  obtain ⟨L', hrun, hrep', hkept⟩ := hrep.push (q := q) (i := .tag t) hq fun q' hin => by
    simp [(hmem q' t).mp hin] at ht
  exact ⟨L', hrun, placed_put hrep' (fun x => List.mem_cons) hmem hall hno hne ht,
    kept_of_othersKept (fun u hu heq => hu (TaskLink.tag.inj heq)) hmem hkept⟩

theorem Placed.remove (h : Placed L live place onAll) (ht : place t = some q) :
    ∃ L', L.remove (.elem (.tag t)) = some L' ∧
      Placed L' live (Function.update place t none) onAll ∧ Cleared L' t ∧ Kept place t L L' := by
  obtain ⟨c, hrep, hmem, hall, hno⟩ := h
  obtain ⟨xs, ys, hc⟩ := List.append_of_mem ((hmem q t).mpr ht)
  obtain ⟨L', hrun, hrep', hn, hp, hkept⟩ := hrep.remove hc
  exact ⟨L', hrun, placed_take hrep' hc (hrep.nodup q) hmem hall hno, ⟨hn, hp⟩,
    kept_of_othersKept (fun u hu heq => hu (TaskLink.tag.inj heq)) hmem hkept⟩

theorem Placed.listEmpty_iff (h : Placed L live place onAll) (hq : live q = true)
    (hne : q ≠ .allTask) : L.listEmpty q = true ↔ ∀ t, place t ≠ some q := by
  obtain ⟨c, hrep, hmem, hall, hno⟩ := h
  rw [hrep.listEmpty_iff hq, List.eq_nil_iff_forall_not_mem]
  constructor
  · exact fun hnone t ht => hnone (.tag t) ((hmem q t).mpr ht)
  · rintro hnone (u | u) hu
    · exact hnone u ((hmem q u).mp hu)
    · exact hne ((hall q u).mp hu).1

theorem Placed.pop (h : Placed L live place onAll) (hq : live q = true) (hne : q ≠ .allTask)
    (hsome : L.listEmpty q = false) :
    ∃ t L', L.listPop q = some (.tag t, L') ∧ place t = some q ∧
      Placed L' live (Function.update place t none) onAll ∧ Cleared L' t ∧ Kept place t L L' := by
  obtain ⟨c, hrep, hmem, hall, hno⟩ := h
  cases hc : c q with
  | nil => simp [(hrep.listEmpty_iff hq).mpr hc] at hsome
  | cons x ys =>
      rcases x with t | u
      · obtain ⟨L', hrun, hrep', hn, hp, hkept⟩ := hrep.pop hc
        exact ⟨t, L', hrun, (hmem q t).mp (by simp [hc]),
          placed_take (show Represents L' _ (Function.update c q ([] ++ ys)) from hrep') hc (hrep.nodup q) hmem hall hno, ⟨hn, hp⟩,
          kept_of_othersKept (fun u hu heq => hu (TaskLink.tag.inj heq)) hmem hkept⟩
      · exact absurd ((hall q u).mp (by simp [hc])).1 hne

theorem Placed.pushAll (h : Placed L live place onAll) (hq : live .allTask = true)
    (ht : ¬ onAll t) :
    ∃ L', L.listPush .allTask (.all t) = some L' ∧
      Placed L' live place (fun u => u = t ∨ onAll u) ∧
      ∀ u, place u = none → Cleared L u → Cleared L' u := by
  obtain ⟨c, hrep, hmem, hall, hno⟩ := h
  obtain ⟨L', hrun, hrep', hkept⟩ := hrep.push (q := .allTask) (i := .all t) hq fun q' hin =>
    ht ((hall q' t).mp hin).2
  refine ⟨L', hrun, ⟨_, hrep', fun q' u => ?_, fun q' u => ?_, hno⟩, fun u hu hc => ?_⟩
  · rw [← hmem]
    by_cases hq' : q' = .allTask
    · subst hq'
      simp
    · rw [Function.update_of_ne hq']
  · by_cases hq' : q' = .allTask
    · subst hq'
      simp [hall]
    · rw [Function.update_of_ne hq', hall]
      simp [hq']
  · obtain ⟨hn, hp⟩ := hkept (.tag u) (by simp) fun q' hin => by simp [(hmem q' u).mp hin] at hu
    exact ⟨hn.trans hc.1, hp.trans hc.2⟩

theorem Placed.popAll (h : Placed L live place onAll) (hq : live .allTask = true)
    (hsome : L.listEmpty .allTask = false) :
    ∃ t L', L.listPop .allTask = some (.all t, L') ∧ onAll t ∧
      Placed L' live place (fun u => onAll u ∧ u ≠ t) ∧
      ∀ u, place u = none → Cleared L u → Cleared L' u := by
  obtain ⟨c, hrep, hmem, hall, hno⟩ := h
  cases hc : c .allTask with
  | nil => simp [(hrep.listEmpty_iff hq).mpr hc] at hsome
  | cons x ys =>
      rcases x with u | t
      · exact absurd ((hmem .allTask u).mp (by simp [hc])) (hno u)
      · obtain ⟨L', hrun, hrep', -, -, hkept⟩ := hrep.pop hc
        have hnodup := hrep.nodup .allTask
        rw [hc] at hnodup
        have hfresh := (List.nodup_cons.mp hnodup).1
        refine ⟨t, L', hrun, ((hall .allTask t).mp (by simp [hc])).2,
          ⟨_, hrep', fun q' u => ?_, fun q' u => ?_, hno⟩, fun u hu hcl => ?_⟩
        · rw [← hmem]
          by_cases hq' : q' = .allTask
          · subst hq'
            simp [hc]
          · rw [Function.update_of_ne hq']
        · by_cases hq' : q' = .allTask
          · subst hq'
            have hold := hall .allTask u
            rw [hc, List.mem_cons] at hold
            by_cases hut : u = t
            · subst hut
              simpa using hfresh
            · simpa [hut] using hold
          · rw [Function.update_of_ne hq', hall]
            simp [hq']
        · obtain ⟨hn, hp⟩ := hkept (.tag u) (by simp) fun q' hin => by
            simp [(hmem q' u).mp hin] at hu
          exact ⟨hn.trans hcl.1, hp.trans hcl.2⟩

theorem Placed.init (h : Placed L live place onAll) (hq : live q = false) :
    Placed (L.listInit q) (Function.update live q true) place onAll ∧
      ∀ u, Cleared L u → Cleared (L.listInit q) u := by
  obtain ⟨c, hrep, hmem, hall, hno⟩ := h
  obtain ⟨hrep', hsame⟩ := hrep.init (q := q) (hrep.dead q (by simp [hq]))
  refine ⟨⟨c, ?_, hmem, hall, hno⟩, fun u hu => ?_⟩
  · have hlive : (fun q' => Function.update live q true q' = true) =
        fun q' => q' = q ∨ live q' = true := by
      funext q'
      by_cases hq' : q' = q
      · simp [hq']
      · simp [hq']
    rwa [hlive]
  · obtain ⟨hn, hp⟩ := hsame (.tag u)
    exact ⟨hn.trans hu.1, hp.trans hu.2⟩

end

/-! ## The invariant -/

/-- The invariant; the tasks of `busy` are on the CPU or on their way between queues, so
that their status says nothing yet. -/
structure QueuesOk (s : Tasks ι ω) (place : ι → Option (TaskQueue ω)) (busy : ι → Prop) :
    Prop where
  placed : Placed s.links s.live place fun t => t ∈ s.known ∧ s.entered t = false ∧ ¬ busy t
  boot : s.live .ready = true ∧ s.live .sleepVec = true ∧ s.live .allTask = true
  status : ∀ t, s.entered t = true → ¬ busy t → TaskAt (s.status t) (place t)
  onWay : ∀ t, busy t → place t = none ∧ t ∈ s.known
  cleared : ∀ t, s.entered t = true → place t = none → Cleared s.links t
  known : ∀ t, s.entered t = true → t ∈ s.known
  fresh : ∀ t, s.entered t = false → place t = none ∧
    (busy t ∨ s.status t = .ready ∨ t ∉ s.known ∧ s.status t = .uninit)

theorem QueuesOk.not_busy_of_place (h : QueuesOk s place busy) (ht : place t = some q) :
    ¬ busy t := fun hb => by simp [(h.onWay t hb).1] at ht

theorem QueuesOk.entered_of_place (h : QueuesOk s place busy) (ht : place t = some q) :
    s.entered t = true := by
  by_contra hne
  simp [(h.fresh t (by simpa using hne)).1] at ht

theorem QueuesOk.ne_zombie_of_new (h : QueuesOk s place busy) (ht : t ∉ s.known) :
    s.status t ≠ .zombie := by
  have hent : s.entered t = false := by
    by_contra hne
    exact ht (h.known t (by simpa using hne))
  obtain ⟨-, hb | hst | ⟨-, hst⟩⟩ := h.fresh t hent
  · exact absurd (h.onWay t hb).2 ht
  all_goals simp [hst]

theorem QueuesOk.setRunning (h : QueuesOk s place busy) (r : Option ι) :
    QueuesOk { s with running := r } place busy :=
  ⟨h.placed, h.boot, h.status, h.onWay, h.cleared, h.known, h.fresh⟩

theorem QueuesOk.congr {busy' : ι → Prop} (h : QueuesOk s place busy)
    (hb : ∀ t, busy' t ↔ busy t) : QueuesOk s place busy' := by
  rwa [show busy' = busy from funext fun t => propext (hb t)]

theorem QueuesOk.ready_of_place (h : QueuesOk s place busy) (ht : place t = some .ready) :
    s.status t = .ready := by
  have hat := h.status t (h.entered_of_place ht) (h.not_busy_of_place ht)
  rw [ht] at hat
  generalize s.status t = st at hat
  cases hat with
  | ready => rfl
  | sleeping _ hwait => cases hwait

theorem QueuesOk.sleeping_of_wait (h : QueuesOk s place busy) (hq : q.isWait = true)
    (ht : place t = some q) : s.status t = .sleeping := by
  have hat := h.status t (h.entered_of_place ht) (h.not_busy_of_place ht)
  rw [ht] at hat
  generalize s.status t = st at hat
  cases hat with
  | ready => cases hq
  | sleeping => rfl

/-- No task became a zombie or ceased to be one. -/
def SameZombies (s s' : Tasks ι ω) : Prop :=
  s'.known = s.known ∧ ∀ t, s'.status t = .zombie ↔ s.status t = .zombie

theorem SameZombies.refl (s : Tasks ι ω) : SameZombies s s := ⟨rfl, fun _ => Iff.rfl⟩

theorem SameZombies.trans {s₁ s₂ s₃ : Tasks ι ω} (h : SameZombies s₁ s₂)
    (k : SameZombies s₂ s₃) : SameZombies s₁ s₃ :=
  ⟨k.1.trans h.1, fun t => (k.2 t).trans (h.2 t)⟩

/-- No task is in a queue that it was not in, the ready queue apart. -/
def Moved (place place' : ι → Option (TaskQueue ω)) : Prop :=
  ∀ t, place' t = place t ∨ place' t = some .ready

theorem Moved.refl (place : ι → Option (TaskQueue ω)) : Moved place place := fun _ => .inl rfl

theorem Moved.trans {place₁ place₂ place₃ : ι → Option (TaskQueue ω)} (h : Moved place₁ place₂)
    (k : Moved place₂ place₃) : Moved place₁ place₃ := fun t =>
  (k t).elim (fun heq => heq.symm ▸ h t) .inr

/-- What a wake-up leaves: some task may have gone to the ready queue. -/
def Woken (s : Tasks ι ω) (busy : ι → Prop) (s' : Tasks ι ω) : Prop :=
  (∃ place', QueuesOk s' place' busy) ∧ s'.running = s.running ∧ s'.live = s.live ∧
    SameZombies s s' ∧ ∀ t, busy t → s'.status t = s.status t ∧ s'.entered t = s.entered t

theorem QueuesOk.woken (h : QueuesOk s place busy) : Woken s busy s :=
  ⟨⟨place, h⟩, rfl, rfl, .refl s, fun _ _ => ⟨rfl, rfl⟩⟩

variable [DecidableEq ι]

theorem Moved.add {place : ι → Option (TaskQueue ω)} (t : ι) :
    Moved place (Function.update place t (some .ready)) := fun u => by
  by_cases hu : u = t
  · exact .inr (by rw [hu, Function.update_self])
  · exact .inl (Function.update_of_ne hu _ _)

theorem Moved.put {place : ι → Option (TaskQueue ω)} (t : ι) :
    Moved place (Function.update (Function.update place t none) t (some .ready)) := by
  rw [Function.update_idem]
  exact .add t

theorem SameZombies.of_update (hk : s'.known = s.known)
    (hst : s'.status = Function.update s.status t st) (hne : st ≠ .zombie)
    (ht : s.status t ≠ .zombie) : SameZombies s s' := by
  refine ⟨hk, fun u => ?_⟩
  rw [hst]
  by_cases hu : u = t
  · subst hu
    simp [hne, ht]
  · rw [Function.update_of_ne hu]

/-- A busy task was put into a queue, with the status that belongs there. -/
theorem QueuesOk.put (h : QueuesOk s place busy) (hb : busy t) (hat : TaskAt st (some q))
    (hp : Placed L' s.live (Function.update place t (some q))
      fun t => t ∈ s.known ∧ s.entered t = false ∧ ¬ busy t)
    (hk : Kept place t s.links L') :
    QueuesOk
      { s with
        links := L'
        status := Function.update s.status t st
        entered := Function.update s.entered t true }
      (Function.update place t (some q)) fun u => busy u ∧ u ≠ t := by
  constructor
  case placed =>
    refine hp.congr fun u => ?_
    by_cases hu : u = t
    · subst hu
      simp [hb]
    · simp [hu]
  case boot => exact h.boot
  case status =>
    intro u hu hnb
    by_cases hut : u = t
    · subst hut
      simpa using hat
    · simp only [Function.update_of_ne hut] at hu ⊢
      exact h.status u hu fun hbu => hnb ⟨hbu, hut⟩
  case onWay =>
    rintro u ⟨hbu, hut⟩
    rw [Function.update_of_ne hut]
    exact h.onWay u hbu
  case cleared =>
    intro u hu hnone
    by_cases hut : u = t
    · subst hut
      simp at hnone
    · simp only [Function.update_of_ne hut] at hu hnone
      exact hk u hut hnone (h.cleared u hu hnone)
  case known =>
    intro u hu
    by_cases hut : u = t
    · exact hut ▸ (h.onWay t hb).2
    · simp only [Function.update_of_ne hut] at hu
      exact h.known u hu
  case fresh =>
    intro u hu
    have hut : u ≠ t := by
      rintro rfl
      simp at hu
    simp only [Function.update_of_ne hut] at hu ⊢
    obtain ⟨hnone, hor⟩ := h.fresh u hu
    exact ⟨hnone, hor.imp (fun hbu => ⟨hbu, hut⟩) id⟩

/-- A task was taken out of its queue. -/
theorem QueuesOk.take (h : QueuesOk s place busy) (ht : place t = some q)
    (hp : Placed L' s.live (Function.update place t none)
      fun t => t ∈ s.known ∧ s.entered t = false ∧ ¬ busy t)
    (hc : Cleared L' t) (hk : Kept place t s.links L') :
    QueuesOk { s with links := L' } (Function.update place t none) fun u => busy u ∨ u = t := by
  have hent := h.entered_of_place ht
  constructor
  case placed =>
    refine hp.congr fun u => ?_
    by_cases hu : u = t
    · subst hu
      simp [hent]
    · simp [hu]
  case boot => exact h.boot
  case status =>
    intro u hu hnb
    simp only [not_or] at hnb
    rw [Function.update_of_ne hnb.2]
    exact h.status u hu hnb.1
  case onWay =>
    rintro u (hbu | rfl)
    · by_cases hut : u = t
      · subst hut
        exact ⟨by simp, h.known u hent⟩
      · rw [Function.update_of_ne hut]
        exact h.onWay u hbu
    · exact ⟨by simp, h.known u hent⟩
  case cleared =>
    intro u hu hnone
    by_cases hut : u = t
    · exact hut ▸ hc
    · rw [Function.update_of_ne hut] at hnone
      exact hk u hut hnone (h.cleared u hu hnone)
  case known => exact h.known
  case fresh =>
    intro u hu
    have hut : u ≠ t := by
      rintro rfl
      rw [hent] at hu
      cases hu
    rw [Function.update_of_ne hut]
    obtain ⟨hnone, hor⟩ := h.fresh u hu
    exact ⟨hnone, hor.imp .inl id⟩

/-- A busy task gets another status. -/
theorem QueuesOk.setStatus (h : QueuesOk s place busy) (hb : busy t) (st : TaskStatus) :
    QueuesOk (s.setStatus t st) place busy := by
  refine ⟨h.placed, h.boot, fun u hu hnb => ?_, h.onWay, h.cleared, h.known, fun u hu => ?_⟩
  · have hut : u ≠ t := fun heq => hnb (heq ▸ hb)
    simpa [Tasks.setStatus, Function.update_of_ne hut] using h.status u hu hnb
  · obtain ⟨hnone, hor⟩ := h.fresh u hu
    refine ⟨hnone, ?_⟩
    by_cases hut : u = t
    · exact .inl (hut ▸ hb)
    · simpa only [Tasks.setStatus, Function.update_of_ne hut] using hor

/-! ## The operations -/

variable [DecidableEq ω]

theorem QueuesOk.taskAdd (h : QueuesOk s place busy) (hb : busy t) :
    ∃ s', (s.setStatus t .ready).taskAdd t = some s' ∧
      QueuesOk s' (Function.update place t (some .ready)) (fun u => busy u ∧ u ≠ t) ∧
      s'.running = s.running ∧ s'.live = s.live ∧ s'.known = s.known ∧
      s'.status = Function.update s.status t .ready ∧
      s'.entered = Function.update s.entered t true := by
  obtain ⟨L', hrun, hp, hk⟩ := h.placed.append h.boot.1 (by simp) (h.onWay t hb).1
  exact ⟨_, by simp only [Tasks.taskAdd, Tasks.setStatus, hrun]; rfl, h.put hb .ready hp hk, rfl,
    rfl, rfl, rfl, rfl⟩

theorem QueuesOk.popTag (h : QueuesOk s place busy) (hq : s.live q = true) (hne : q ≠ .allTask)
    (hsome : s.links.listEmpty q = false) :
    ∃ t s', s.popTag q = some (t, s') ∧ place t = some q ∧
      QueuesOk s' (Function.update place t none) (fun u => busy u ∨ u = t) ∧
      s'.running = s.running ∧ s'.live = s.live ∧ s'.known = s.known ∧ s'.status = s.status ∧
      s'.entered = s.entered := by
  obtain ⟨t, L', hrun, ht, hp, hc, hk⟩ := h.placed.pop hq hne hsome
  exact ⟨t, _, by simp only [Tasks.popTag, hrun], ht, h.take ht hp hc hk, rfl, rfl, rfl, rfl, rfl⟩

theorem QueuesOk.wakeupFromwq (h : QueuesOk s place busy) (hwait : q.isWait = true)
    (hq : s.live q = true) : ∃ s' place', s.wakeupFromwq q = some s' ∧
      QueuesOk s' place' busy ∧ Moved place place' ∧ Woken s busy s' := by
  rw [Tasks.wakeupFromwq]
  split
  · exact ⟨s, place, rfl, h, .refl place, h.woken⟩
  next hempty =>
    obtain ⟨t, s₁, hpop, ht, h₁, hr, hl, hk, hst, hent⟩ :=
      h.popTag hq (TaskQueue.ne_allTask hwait) (by simpa using hempty)
    have hnb := h.not_busy_of_place ht
    obtain ⟨s₂, hadd, h₂, hr₂, hl₂, hk₂, hst₂, hent₂⟩ := h₁.taskAdd (.inr rfl)
    have hsleep := h.sleeping_of_wait hwait ht
    rw [hst] at hst₂
    have h₃ : QueuesOk s₂ _ busy := h₂.congr fun u =>
      ⟨fun hu => ⟨.inl hu, fun heq => hnb (heq ▸ hu)⟩, fun ⟨hor, hne⟩ => hor.resolve_right hne⟩
    refine ⟨s₂, _, ?_, h₃, .put t, ⟨_, h₃⟩, hr₂.trans hr, hl₂.trans hl,
      .of_update (hk₂.trans hk) hst₂ (by simp) (by simp [hsleep]), fun u hu => ?_⟩
    · simp [hpop, hst, hsleep, hadd]
    · have hut : u ≠ t := fun heq => hnb (heq ▸ hu)
      rw [hst₂, hent₂, Function.update_of_ne hut, Function.update_of_ne hut, hent]
      exact ⟨rfl, rfl⟩

/-- The walk along `sleep_vec` ends and finds the task if it is there. -/
theorem QueuesOk.sleepVecHas (h : QueuesOk s place busy) (t : ι) :
    s.sleepVecHas t = some (decide (place t = some .sleepVec)) := by
  obtain ⟨c, hrep, hmem, hall, hno⟩ := h.placed
  have hsub : c .sleepVec ⊆ s.known.map .tag := by
    rintro (u | u) hu
    · refine List.mem_map.mpr ⟨u, h.known u ?_, rfl⟩
      exact h.entered_of_place ((hmem _ u).mp hu)
    · simp [hall] at hu
  have hlen := ((hrep.nodup .sleepVec).subperm hsub).length_le
  rw [List.length_map] at hlen
  rw [Tasks.sleepVecHas, elemFind_eq (hrep.linked .sleepVec h.boot.2.1) (by omega)]
  simp [hmem]

theorem QueuesOk.wakeupFromsv (h : QueuesOk s place busy) (t : ι) :
    ∃ s' place', s.wakeupFromsv t = some s' ∧ QueuesOk s' place' busy ∧ Moved place place' ∧
      place' t ≠ some .sleepVec ∧ Woken s busy s' := by
  rw [Tasks.wakeupFromsv, h.sleepVecHas]
  by_cases ht : place t = some .sleepVec
  · have hnb := h.not_busy_of_place ht
    obtain ⟨L', hrun, hp, hc, hk⟩ := h.placed.remove ht
    have h₁ := h.take ht hp hc hk
    obtain ⟨s₂, hadd, h₂, hr₂, hl₂, hk₂, hst₂, hent₂⟩ := h₁.taskAdd (.inr rfl)
    have hsleep : s.status t = .sleeping := h.sleeping_of_wait rfl ht
    have h₃ : QueuesOk s₂ _ busy := h₂.congr fun u =>
      ⟨fun hu => ⟨.inl hu, fun heq => hnb (heq ▸ hu)⟩, fun ⟨hor, hne⟩ => hor.resolve_right hne⟩
    refine ⟨s₂, _, ?_, h₃, .put t, by simp, ⟨_, h₃⟩, hr₂, hl₂,
      .of_update hk₂ hst₂ (by simp) (by simp [hsleep]), fun u hu => ?_⟩
    · simp only [ht, decide_true, hrun, Option.bind_some, hadd]
    · have hut : u ≠ t := fun heq => hnb (heq ▸ hu)
      rw [hst₂, hent₂, Function.update_of_ne hut, Function.update_of_ne hut]
      exact ⟨rfl, rfl⟩
  · simp only [ht, decide_false]
    exact ⟨s, place, rfl, h, .refl place, ht, h.woken⟩

theorem QueuesOk.wakeups (h : QueuesOk s place busy) (closed : List (TaskQueue ω))
    (hall : ∀ q ∈ closed, q.isWait = true ∧ s.live q = true) :
    ∃ s' place', closed.foldlM Tasks.wakeupFromwq s = some s' ∧ QueuesOk s' place' busy ∧
      Moved place place' ∧ Woken s busy s' := by
  induction closed generalizing s place with
  | nil => exact ⟨s, place, rfl, h, .refl place, h.woken⟩
  | cons q closed ih =>
      obtain ⟨hwait, hlive⟩ := hall q (by simp)
      obtain ⟨s₁, place₁, hrun, h₁, hm, -, hr, hl, hz, hst⟩ := h.wakeupFromwq hwait hlive
      obtain ⟨s₂, place₂, hrun₂, h₂, hm₂, hp₂, hr₂, hl₂, hz₂, hst₂⟩ := ih h₁ fun q' hq' => by
        rw [hl]
        exact hall q' (List.mem_cons_of_mem _ hq')
      refine ⟨s₂, place₂, ?_, h₂, hm.trans hm₂, hp₂, hr₂.trans hr, hl₂.trans hl, hz.trans hz₂,
        fun t ht => ⟨(hst₂ t ht).1.trans (hst t ht).1, (hst₂ t ht).2.trans (hst t ht).2⟩⟩
      simp only [List.foldlM_cons, hrun]
      exact hrun₂

theorem QueuesOk.refill (h : QueuesOk s place busy) :
    ∃ s' place', s.refill = some s' ∧ QueuesOk s' place' busy ∧ Moved place place' ∧
      s'.running = s.running ∧ s'.known = s.known ∧ s'.status = s.status ∧
      ∀ u, busy u → s'.entered u = s.entered u := by
  rw [Tasks.refill]
  split
  next hcond =>
    simp only [Bool.and_eq_true, Bool.not_eq_true'] at hcond
    obtain ⟨t, L₁, hpop, ⟨hknown, hent, hnb⟩, hp₁, hk₁⟩ := h.placed.popAll h.boot.2.2 hcond.2
    obtain ⟨hnone, hst⟩ := h.fresh t hent
    have hready : s.status t = .ready := by simpa [hnb, hknown] using hst
    obtain ⟨L₂, hpush, hp₂, hk₂⟩ := hp₁.push h.boot.1 (by simp) hnone
    -- between the two lists the task is busy
    have h₁ : QueuesOk { s with links := L₁ } place fun u => busy u ∨ u = t := by
      refine ⟨hp₁.congr fun u => ?_, h.boot, fun u hu hb => ?_, ?_, fun u hu hn => ?_, h.known,
        fun u hu => ?_⟩
      · simp only [not_or]
        tauto
      · exact h.status u hu fun hbu => hb (.inl hbu)
      · rintro u (hbu | rfl)
        · exact h.onWay u hbu
        · exact ⟨hnone, hknown⟩
      · exact hk₁ u hn (h.cleared u hu hn)
      · obtain ⟨hn, hor⟩ := h.fresh u hu
        exact ⟨hn, hor.imp .inl id⟩
    have h₂ := h₁.put (.inr rfl) .ready (hp₂.congr fun u => by simp only [not_or]; tauto) hk₂
    have hsame : Function.update s.status t .ready = s.status := by
      rw [← hready, Function.update_eq_self]
    simp only [hsame] at h₂
    refine ⟨_, Function.update place t (some .ready), by simp only [hpop, hpush]; rfl,
      QueuesOk.congr h₂ fun u => ?_, .add t, rfl, rfl, rfl, fun u hu =>
        Function.update_of_ne (fun heq : u = t => hnb (heq ▸ hu)) _ _⟩
    constructor
    · exact fun hu => ⟨.inl hu, fun heq => hnb (heq ▸ hu)⟩
    · exact fun ⟨hor, hne⟩ => hor.resolve_right hne
  · exact ⟨s, place, rfl, h, .refl place, rfl, rfl, rfl, fun _ _ => rfl⟩

omit [DecidableEq ω] in
/-- A new task is made and is on its way. -/
theorem QueuesOk.tcbNew (h : QueuesOk s place busy) (ht : t ∉ s.known) :
    QueuesOk (s.tcbNew t) place (fun u => busy u ∨ u = t) ∧ (s.tcbNew t).entered t = false ∧
      place t = none := by
  have hent : s.entered t = false := by
    by_contra hne
    exact ht (h.known t (by simpa using hne))
  have hnone := (h.fresh t hent).1
  refine ⟨⟨h.placed.congr fun u => ?_, h.boot, fun u hu hnb => ?_, ?_, h.cleared, fun u hu => ?_,
    fun u hu => ?_⟩, hent, hnone⟩
  · by_cases hu : u = t
    · subst hu
      simp [ht]
    · simp [Tasks.tcbNew, Tasks.setStatus, hu]
  · simp only [not_or] at hnb
    simpa [Tasks.tcbNew, Tasks.setStatus, Function.update_of_ne hnb.2] using h.status u hu hnb.1
  · rintro u (hbu | rfl)
    · obtain ⟨hn, hk⟩ := h.onWay u hbu
      exact ⟨hn, List.mem_cons_of_mem _ hk⟩
    · exact ⟨hnone, List.mem_cons_self⟩
  · exact List.mem_cons_of_mem _ (h.known u hu)
  · obtain ⟨hn, hor⟩ := h.fresh u hu
    refine ⟨hn, ?_⟩
    by_cases hut : u = t
    · exact .inl (.inr hut)
    · simpa [Tasks.tcbNew, Tasks.setStatus, hut] using hor

theorem QueuesOk.taskCreate (h : QueuesOk s place busy) (ht : t ∉ s.known) :
    ∃ s', (s.tcbNew t).taskCreate t = some s' ∧ QueuesOk s' place busy ∧
      s'.running = s.running ∧
      ∀ u, u ∈ s.known → s'.status u = s.status u ∧ s'.entered u = s.entered u := by
  obtain ⟨h₁, hent, hnone⟩ := h.tcbNew ht
  have hnb : ¬ busy t := fun hb => ht (h.onWay t hb).2
  obtain ⟨L', hrun, hp, hk⟩ := h₁.placed.pushAll (t := t) h.boot.2.2 (by simp)
  refine ⟨{ s.tcbNew t with links := L' }, by simp only [Tasks.taskCreate, hrun, Option.map_some],
    ⟨hp.congr fun u => ?_, h.boot, fun u hu hbu => ?_, fun u hu => h₁.onWay u (.inl hu),
      fun u hu hn => ?_, h₁.known, fun u hu => ?_⟩, rfl, fun u hu => ?_⟩
  · by_cases hu : u = t
    · subst hu
      simp only [hent, hnb]
      simp [Tasks.tcbNew]
    · simp [hu]
  · refine h₁.status u hu (by rintro (hb | rfl); exacts [hbu hb, by simp [hent] at hu])
  · exact hk u hn (h₁.cleared u hu hn)
  · obtain ⟨hn, hor⟩ := h₁.fresh u hu
    refine ⟨hn, ?_⟩
    by_cases hut : u = t
    · subst hut
      exact .inr (.inl (by simp [Tasks.tcbNew, Tasks.setStatus]))
    · exact hor.imp (fun hb => hb.resolve_right hut) id
  · have hut : u ≠ t := fun heq => ht (heq ▸ hu)
    exact ⟨Function.update_of_ne hut _ _, rfl⟩

theorem QueuesOk.taskAddNew (h : QueuesOk s place busy) (ht : t ∉ s.known) :
    ∃ s' place', (s.tcbNew t).taskAdd t = some s' ∧ QueuesOk s' place' busy ∧
      Moved place place' ∧ s'.running = s.running ∧ s'.known = t :: s.known ∧
      s'.status = Function.update s.status t .ready ∧
      ∀ u, u ∈ s.known → s'.entered u = s.entered u := by
  obtain ⟨h₁, hent, hnone⟩ := h.tcbNew ht
  have hnb : ¬ busy t := fun hb => ht (h.onWay t hb).2
  have hsame : (s.tcbNew t).setStatus t .ready = s.tcbNew t := by
    simp [Tasks.tcbNew, Tasks.setStatus]
  obtain ⟨s', hrun, h₂, hr, hl, hk, hst, hent'⟩ := h₁.taskAdd (.inr rfl)
  rw [hsame] at hrun
  refine ⟨s', _, hrun, h₂.congr fun u => ?_, .add t, hr, hk, ?_, fun u hu => ?_⟩
  · constructor
    · exact fun hu => ⟨.inl hu, fun heq => hnb (heq ▸ hu)⟩
    · exact fun ⟨hor, hne⟩ => hor.resolve_right hne
  · rw [hst]
    exact Function.update_idem ..
  · rw [hent', Function.update_of_ne fun heq : u = t => ht (heq ▸ hu)]
    rfl

/-! ## Steps and runs -/

/-- The invariant between operations: the running task is in no queue, and it is the one
whose status says so. -/
def TasksOk (s : Tasks ι ω) : Prop :=
  (∃ place, QueuesOk s place fun t => s.running = some t) ∧
    ∀ t, s.running = some t → s.status t = .running ∧ s.entered t = true

/-- No task is in `sleep_vec` that was not there. -/
def NoNewSleepers (s s' : Tasks ι ω) : Prop :=
  ∀ t, s'.sleepVecHas t = some true → s.sleepVecHas t = some true

theorem QueuesOk.noNewSleepers {place' : ι → Option (TaskQueue ω)} {busy' : ι → Prop}
    (h : QueuesOk s place busy) (h' : QueuesOk s' place' busy') (hm : Moved place place') :
    NoNewSleepers s s' := fun t ht => by
  rw [h'.sleepVecHas, Option.some.injEq, decide_eq_true_eq] at ht
  rw [h.sleepVecHas, Option.some.injEq, decide_eq_true_eq]
  rcases hm t with heq | heq
  · exact heq.symm.trans ht
  · rw [heq] at ht
    cases ht

omit [DecidableEq ι] [DecidableEq ω] in
theorem QueuesOk.tasksOk_idle (h : QueuesOk s place fun _ => False) (hr : s.running = none) :
    TasksOk s :=
  ⟨⟨place, h.congr fun t => by simp [hr]⟩, by simp [hr]⟩

theorem TasksOk.run (h : TasksOk s) (hidle : s.running = none) :
    ∃ s', s.run = some s' ∧ TasksOk s' ∧ SameZombies s s' ∧ NoNewSleepers s s' := by
  obtain ⟨⟨place, hq⟩, -⟩ := h
  rw [Tasks.run, Tasks.taskFetch]
  split
  · obtain ⟨s₁, place₁, hrun, h₁, hm₁, hr₁, hk₁, hst₁, -⟩ := hq.refill
    refine ⟨s₁, by simp [hrun], QueuesOk.tasksOk_idle (h₁.congr fun t => ?_) (hr₁.trans hidle),
      ⟨hk₁, fun t => by rw [hst₁]⟩, hq.noNewSleepers h₁ hm₁⟩
    simp [hidle]
  next hempty =>
    obtain ⟨t, s₁, hpop, ht, h₁, -, -, hk₁, hst₁, hent₁⟩ :=
      hq.popTag hq.boot.1 (by simp) (by simpa using hempty)
    obtain ⟨s₂, place₂, hrun, h₂, hm₂, -, hk₂, hst₂, hent₂⟩ := h₁.refill
    have h₃ := (h₂.setStatus (.inr rfl) .running).setRunning (some t)
    have hready : s.status t = .ready := hq.ready_of_place ht
    have hst := hst₂.trans hst₁
    refine ⟨_, by simp only [hpop, Option.map_some, Option.bind_eq_bind, Option.bind_some, hrun]; rfl,
      ⟨⟨place₂, h₃.congr fun u => ?_⟩, fun u hu => ?_⟩,
      .of_update (hk₂.trans hk₁) (by rw [← hst]; rfl) (by simp) (by simp [hready]), fun u hu => ?_⟩
    · simp [hidle, eq_comm]
    · obtain rfl : t = u := Option.some.inj hu
      refine ⟨by simp [Tasks.setStatus], (hent₂ t (.inr rfl)).trans ?_⟩
      rw [hent₁]
      exact hq.entered_of_place ht
    · -- the fetched task is in no queue
      rw [h₃.sleepVecHas, Option.some.injEq, decide_eq_true_eq] at hu
      rw [hq.sleepVecHas, Option.some.injEq, decide_eq_true_eq]
      rcases hm₂ u with heq | heq
      · rw [heq] at hu
        by_cases hut : u = t
        · simp [hut] at hu
        · rwa [Function.update_of_ne hut] at hu
      · rw [heq] at hu
        cases hu

omit [DecidableEq ω] in
theorem zombie_setStatus_zombie (s : Tasks ι ω) (t u : ι) :
    (s.setStatus t .zombie).status u = .zombie ↔ u = t ∨ s.status u = .zombie := by
  by_cases hu : u = t
  · subst hu
    simp [Tasks.setStatus]
  · simp [Tasks.setStatus, hu]

/-- The running task leaves the CPU for a queue. -/
theorem TasksOk.leave (h : TasksOk s) (ht : s.running = some t)
    (hwait : q.isWait = true ∧ s.live q = true ∧ st = .sleeping ∨ q = .ready ∧ st = .ready) :
    ∃ L', s.links.listAppend q (.tag t) = some L' ∧ Cleared s.links t ∧ TasksOk
      { s with
        links := L'
        status := Function.update s.status t st
        running := none } ∧ ∀ u, sleepVecHas
      { s with
        links := L'
        status := Function.update s.status t st
        running := none } u = some true → s.sleepVecHas u = some true ∨ u = t ∧ q = .sleepVec := by
  obtain ⟨⟨place, h⟩, hcur⟩ := h
  have hent := (hcur t ht).2
  have hq : s.live q = true ∧ q ≠ .allTask ∧ TaskAt st (some q) := by
    rcases hwait with ⟨hw, hl, rfl⟩ | ⟨rfl, rfl⟩
    · exact ⟨hl, TaskQueue.ne_allTask hw, .sleeping q hw⟩
    · exact ⟨h.boot.1, by simp, .ready⟩
  have hnone := (h.onWay t ht).1
  obtain ⟨L', hrun, hp, hk⟩ := h.placed.append hq.1 hq.2.1 hnone
  have h₁ := (h.put ht hq.2.2 hp hk).setRunning none
  have hsame : Function.update s.entered t true = s.entered := by
    rw [← hent, Function.update_eq_self]
  simp only [hsame] at h₁
  refine ⟨L', hrun, h.cleared t hent hnone,
    QueuesOk.tasksOk_idle (h₁.congr fun u => by simp [ht, eq_comm]) rfl, fun u hu => ?_⟩
  rw [h₁.sleepVecHas, Option.some.injEq, decide_eq_true_eq] at hu
  rw [h.sleepVecHas, Option.some.injEq, decide_eq_true_eq]
  by_cases hut : u = t
  · exact .inr ⟨hut, by simpa [hut] using hu⟩
  · exact .inl (by rwa [Function.update_of_ne hut] at hu)

theorem TasksOk.suspend (h : TasksOk s) (ht : s.running = some t) :
    ∃ s', s.suspendCurrentAndRunNext t = some s' ∧ TasksOk s' ∧ SameZombies s s' ∧
      NoNewSleepers s s' := by
  obtain ⟨L', hrun, -, hok, hsv⟩ := h.leave (q := .ready) ht (.inr ⟨rfl, rfl⟩)
  have hsame : Function.update s.entered t true = s.entered := by
    rw [← (h.2 t ht).2, Function.update_eq_self]
  refine ⟨_, ?_, hok, .of_update rfl rfl (by simp) (by simp [(h.2 t ht).1]), fun u hu =>
    (hsv u hu).resolve_right fun ⟨_, hq⟩ => by cases hq⟩
  simp only [Tasks.suspendCurrentAndRunNext, Tasks.taskAdd, Tasks.setStatus, hrun,
    Option.map_some, Tasks.enter, hsame]

theorem TasksOk.sleep (h : TasksOk s) (ht : s.running = some t)
    (hwait : q.isWait = true ∧ s.live q = true) :
    ∃ s', s.sleep t q = some s' ∧ TasksOk s' ∧ SameZombies s s' ∧ ∀ u,
      s'.sleepVecHas u = some true → s.sleepVecHas u = some true ∨ u = t ∧ q = .sleepVec := by
  obtain ⟨L', hrun, hc, hok, hsv⟩ := h.leave ht (.inl ⟨hwait.1, hwait.2, rfl⟩)
  refine ⟨_, ?_, hok, .of_update rfl rfl (by simp) (by simp [(h.2 t ht).1]), hsv⟩
  rw [Tasks.sleep, if_neg (by simp [hc.1, hc.2])]
  simp only [hrun, Option.map_some, Tasks.setStatus]

theorem TasksOk.exit (h : TasksOk s) (ht : s.running = some t) (parent : ι)
    (closed : List (TaskQueue ω)) (hall : ∀ q ∈ closed, q.isWait = true ∧ s.live q = true) :
    ∃ s', s.exitCurrentAndRunNext t parent closed = some s' ∧ TasksOk s' ∧
      s'.known = s.known ∧ (∀ u, s'.status u = .zombie ↔ u = t ∨ s.status u = .zombie) ∧
      NoNewSleepers s s' ∧ s'.sleepVecHas parent ≠ some true := by
  obtain ⟨⟨place, hq⟩, hcur⟩ := h
  have h₁ := hq.setStatus ht .zombie
  obtain ⟨s₂, place₂, hrun₂, h₂, hm₂, -, -, -, hz₂, hst₂⟩ := h₁.wakeups closed hall
  obtain ⟨s₃, place₃, hrun₃, h₃, hm₃, hparent, -, -, -, hz₃, hst₃⟩ := h₂.wakeupFromsv parent
  have hz := hz₂.trans hz₃
  have hzombie : s₃.status t = .zombie := by
    rw [(hst₃ t ht).1, (hst₂ t ht).1]
    simp [Tasks.setStatus]
  have hent : s₃.entered t = true := by
    rw [(hst₃ t ht).2, (hst₂ t ht).2]
    exact (hcur t ht).2
  have hother : ∀ u, s₃.entered u = false → s.running ≠ some u := by
    intro u hu heq
    obtain rfl := Option.some.inj (heq.symm.trans ht)
    rw [hent] at hu
    cases hu
  suffices hidle : QueuesOk { s₃ with running := none } place₃ fun _ => False from
    ⟨_, by simp [Tasks.exitCurrentAndRunNext, hrun₂, hrun₃], hidle.tasksOk_idle rfl, hz.1,
      fun u => (hz.2 u).trans (zombie_setStatus_zombie s t u),
      hq.noNewSleepers hidle (hm₂.trans hm₃), by rw [hidle.sleepVecHas]; simpa using hparent⟩
  refine ⟨h₃.placed.congr fun u => ?_, h₃.boot, fun u hu _ => ?_, fun _ hf => hf.elim, h₃.cleared,
    h₃.known, fun u hu => ?_⟩
  · constructor
    · exact fun ⟨hk, hu, _⟩ => ⟨hk, hu, hother u hu⟩
    · exact fun ⟨hk, hu, _⟩ => ⟨hk, hu, id⟩
  · by_cases hut : u = t
    · subst hut
      rw [hzombie, (h₃.onWay u ht).1]
      exact .zombie
    · exact h₃.status u hu fun heq => hut (Option.some.inj (heq.symm.trans ht))
  · obtain ⟨hn, hor⟩ := h₃.fresh u hu
    exact ⟨hn, .inr (hor.resolve_left (hother u hu))⟩

omit [DecidableEq ι] [DecidableEq ω] in
/-- What wakes or makes other tasks leaves the running one. -/
theorem TasksOk.of_kept {s' : Tasks ι ω} (h : TasksOk s) {place' : ι → Option (TaskQueue ω)}
    (hq : QueuesOk s' place' fun t => s.running = some t) (hr : s'.running = s.running)
    (hst : ∀ t, s.running = some t → s'.status t = s.status t ∧ s'.entered t = s.entered t) :
    TasksOk s' := by
  refine ⟨⟨place', by rwa [hr]⟩, fun t ht => ?_⟩
  rw [hr] at ht
  rw [(hst t ht).1, (hst t ht).2]
  exact h.2 t ht

theorem TasksOk.init (h : TasksOk s) {w : ω} (hw : s.live (.other w) = false) :
    TasksOk (s.listInit (.other w)) ∧ SameZombies s (s.listInit (.other w)) ∧
      NoNewSleepers s (s.listInit (.other w)) := by
  obtain ⟨place, hq⟩ := h.1
  obtain ⟨hplaced, hclear⟩ := hq.placed.init hw
  have hlive : ∀ q, s.live q = true → Function.update s.live (.other w) true q = true := by
    intro q hq
    by_cases hqw : q = .other w
    · simp [hqw]
    · rwa [Function.update_of_ne hqw]
  suffices hok : QueuesOk (s.listInit (.other w)) place fun t => s.running = some t from
    ⟨h.of_kept hok rfl fun _ _ => ⟨rfl, rfl⟩, .refl s, hq.noNewSleepers hok (.refl place)⟩
  exact ⟨hplaced, ⟨hlive _ hq.boot.1, hlive _ hq.boot.2.1, hlive _ hq.boot.2.2⟩, hq.status,
    hq.onWay, fun t ht hn => hclear t (hq.cleared t ht hn), hq.known, hq.fresh⟩

theorem TasksOk.add (h : TasksOk s) (ht : t ∉ s.known) :
    ∃ s', (s.tcbNew t).taskAdd t = some s' ∧ TasksOk s' ∧ s'.running = s.running ∧
      s'.known = t :: s.known ∧ (∀ u, s'.status u = .zombie ↔ s.status u = .zombie) ∧
      NoNewSleepers s s' := by
  obtain ⟨place, hq⟩ := h.1
  obtain ⟨s', place', hrun, hq', hm, hr, hk, hst, hent⟩ := hq.taskAddNew ht
  have hsame : SameZombies s { s with status := s'.status } :=
    .of_update rfl hst (by simp) (hq.ne_zombie_of_new ht)
  refine ⟨s', hrun, h.of_kept hq' hr fun u hu => ?_, hr, hk, hsame.2, hq.noNewSleepers hq' hm⟩
  have hku := (hq.onWay u hu).2
  have hut : u ≠ t := fun heq => ht (heq ▸ hku)
  exact ⟨by rw [hst, Function.update_of_ne hut], hent u hku⟩

theorem TasksOk.wakeupFromwq (h : TasksOk s) (hwait : q.isWait = true) (hq : s.live q = true) :
    ∃ s', s.wakeupFromwq q = some s' ∧ TasksOk s' ∧ s'.running = s.running ∧
      SameZombies s s' ∧ NoNewSleepers s s' := by
  obtain ⟨place, hok⟩ := h.1
  obtain ⟨s', place', hrun, hq', hm, -, hr, -, hz, hst⟩ := hok.wakeupFromwq hwait hq
  exact ⟨s', hrun, h.of_kept hq' hr hst, hr, hz, hok.noNewSleepers hq' hm⟩

/-- Every operation that can come is carried out and keeps the invariant. -/
theorem TasksOk.step (h : TasksOk s) {op : TaskOp ι ω} (hp : s.Permitted op) :
    ∃ s', s.taskStep op = some s' ∧ TasksOk s' := by
  obtain ⟨place, hq⟩ := h.1
  have hknown : ∀ t, s.running = some t → t ∈ s.known := fun t ht => (hq.onWay t ht).2
  cases op with
  | init w =>
      obtain ⟨hok, -⟩ := h.init hp
      exact ⟨_, rfl, hok⟩
  | create t =>
      obtain ⟨s', hrun, hq', hr, hst⟩ := hq.taskCreate hp
      exact ⟨s', hrun, h.of_kept hq' hr fun u hu => hst u (hknown u hu)⟩
  | add t =>
      obtain ⟨s', hrun, hok, -⟩ := h.add hp
      exact ⟨s', hrun, hok⟩
  | dispatch =>
      obtain ⟨s', hrun, hok, -⟩ := h.run hp
      exact ⟨s', hrun, hok⟩
  | suspend =>
      obtain ⟨t, ht⟩ := Option.isSome_iff_exists.mp hp
      obtain ⟨s', hrun, h', -⟩ := h.suspend ht
      exact ⟨s', by simp [taskStep, ht, hrun], h'⟩
  | sleep q =>
      obtain ⟨t, ht⟩ := Option.isSome_iff_exists.mp hp.1
      obtain ⟨s', hrun, h', -⟩ := h.sleep ht hp.2
      exact ⟨s', by simp [taskStep, ht, hrun], h'⟩
  | wakeupFromwq q =>
      obtain ⟨s', hrun, h', -⟩ := h.wakeupFromwq hp.1 hp.2
      exact ⟨s', hrun, h'⟩
  | wakeupFromsv t =>
      obtain ⟨s', place', hrun, hq', -, -, -, hr, -, -, hst⟩ := hq.wakeupFromsv t
      exact ⟨s', hrun, h.of_kept hq' hr hst⟩
  | exit parent closed =>
      obtain ⟨t, ht⟩ := Option.isSome_iff_exists.mp hp.1
      obtain ⟨s', hrun, h', -⟩ := h.exit ht parent closed hp.2
      exact ⟨s', by simp [taskStep, ht, hrun], h'⟩

theorem tmInit_ok (L : Links (Node (TaskQueue ω) (TaskLink ι))) : TasksOk (tmInit L) := by
  have hnone : Placed L (fun _ => false) (fun _ : ι => none) fun _ => False :=
    ⟨fun _ => [], ⟨by simp, by simp, by simp, by simp⟩, by simp, by simp, by simp⟩
  obtain ⟨h₁, -⟩ := hnone.init (q := .ready) rfl
  obtain ⟨h₂, -⟩ := h₁.init (q := .allTask) (by simp)
  obtain ⟨h₃, -⟩ := h₂.init (q := .sleepVec) (by simp)
  suffices hidle : QueuesOk (tmInit L) (fun _ => none) fun _ => False from hidle.tasksOk_idle rfl
  refine ⟨h₃.congr (by simp [tmInit, listInit]),
    by simp [tmInit, listInit], ?_, by simp, ?_, ?_, ?_⟩
  all_goals simp [tmInit, listInit]

/-- What holds of a state: there are contents of the queues, which the links represent
without linking a tag twice, such that every task that was once ready is where its status
says; at most one task runs; every operation that can come is carried out. -/
structure QueueLaws (s : Tasks ι ω) : Prop where
  queues : ∃ c, Represents s.links (s.live · = true) c ∧
    (∀ t, s.entered t = true → (.tag t ∈ c .ready ↔ s.status t = .ready) ∧
      (s.status t = .sleeping → ∃ q, q.isWait = true ∧ ∀ q', .tag t ∈ c q' ↔ q' = q) ∧
      (s.status t ≠ .ready → s.status t ≠ .sleeping → ∀ q, .tag t ∉ c q)) ∧
    ∀ t, s.running = some t → ∀ q, .tag t ∉ c q
  running : ∀ t, s.status t = .running ↔ s.running = some t
  steps : ∀ op, s.Permitted op → ∃ s', TaskStep s op s'

theorem TasksOk.laws (h : TasksOk s) : QueueLaws s := by
  obtain ⟨⟨place, hq⟩, hcur⟩ := h
  have hat : ∀ t, s.entered t = true →
      TaskAt (s.status t) (place t) ∨ s.status t = .running ∧ place t = none := by
    intro t ht
    by_cases hr : s.running = some t
    · exact .inr ⟨(hcur t hr).1, (hq.onWay t hr).1⟩
    · exact .inl (hq.status t ht hr)
  obtain ⟨c, hrep, hmem, hall, hno⟩ := hq.placed
  refine ⟨⟨c, hrep, fun t ht => ?_, fun t ht q hin => ?_⟩, fun t => ⟨fun ht => ?_, fun ht => (hcur t ht).1⟩,
    fun op hp => ?_⟩
  · simp only [hmem]
    have hplace := hat t ht
    generalize s.status t = st at hplace
    generalize place t = p at hplace
    rcases hplace with hplace | ⟨rfl, rfl⟩
    · cases hplace with
      | ready => simp
      | sleeping q hwait =>
          refine ⟨?_, fun _ => ⟨q, hwait, fun q' => by simp [eq_comm]⟩, by simp⟩
          have hne : q ≠ .ready := by
            rintro rfl
            cases hwait
          simp [hne]
      | zombie => simp
    · simp
  · have hnone := (hq.onWay t ht).1
    rw [(hmem q t).mp hin] at hnone
    cases hnone
  · by_contra hr
    by_cases hent : s.entered t = true
    · have hp := hq.status t hent hr
      rw [ht] at hp
      cases hp
    · obtain ⟨-, hor⟩ := hq.fresh t (by simpa using hent)
      rcases hor with hb | hst | ⟨-, hst⟩
      · exact hr hb
      · rw [ht] at hst
        cases hst
      · rw [ht] at hst
        cases hst
  · obtain ⟨s', hs', -⟩ := TasksOk.step ⟨⟨place, hq⟩, hcur⟩ hp
    exact ⟨s', hp, hs'⟩

/-- The queues agree with the status of every task in every state of every run. -/
theorem queueLaws_of_run {L : Links (Node (TaskQueue ω) (TaskLink ι))} {ops : List (TaskOp ι ω)}
    (hrun : Run TaskStep (tmInit L) ops s) : QueueLaws s := by
  have hkeep : ∀ (u : Tasks ι ω) op v, TasksOk u → TaskStep u op v → TasksOk v := by
    rintro u op v hu ⟨hp, hstep⟩
    obtain ⟨v', hv', hok⟩ := hu.step hp
    obtain rfl := Option.some.inj (hv'.symm.trans hstep)
    exact hok
  exact (hrun.invariant hkeep (tmInit_ok L)).laws

/-- A task goes to sleep in `sleep_vec`, and one that was added later is dispatched and
wakes it by its exit. -/
theorem queueLaws_two_tasks :
    ∃ s, Run TaskStep (tmInit ⟨fun _ => none, fun _ => none⟩ : Tasks Bool Empty)
        [.add false, .dispatch, .sleep .sleepVec, .add true, .dispatch, .exit false []] s ∧
      QueueLaws s := by
  have hrun : ∃ s, Run TaskStep (tmInit ⟨fun _ => none, fun _ => none⟩ : Tasks Bool Empty)
      [.add false, .dispatch, .sleep .sleepVec, .add true, .dispatch, .exit false []] s :=
    ⟨_, .step ⟨List.not_mem_nil, rfl⟩ <| .step ⟨rfl, rfl⟩ <| .step ⟨⟨rfl, rfl, rfl⟩, rfl⟩ <|
      .step ⟨show true ∉ [false] by decide, rfl⟩ <| .step ⟨rfl, rfl⟩ <| .single ⟨⟨rfl, by simp⟩, rfl⟩⟩
  obtain ⟨s, hrun⟩ := hrun
  exact ⟨s, hrun, queueLaws_of_run hrun⟩

end Tasks

end K210Os
