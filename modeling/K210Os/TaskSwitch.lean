import K210Os.Riscv
import K210Os.Transition

/-!
# Switching between tasks

`__switch` parks the running flow: it pushes `ra` and `s0` to `s11` on the kernel stack and
leaves the stack pointer in a cell. Then it takes another flow up from that flow's cell. A
new task gets its first frame from C code. Between two switches a hart may do what it likes
with its registers and with memory, except to the frames and cells of the parked flows.
-/

namespace K210Os

open Riscv Transition

/-- `SAVE_SN` and `LOAD_SN`: where `s0` to `s11` lie in a `TaskContext`. -/
def snSlots : List (Reg × Word) :=
  (List.range 12).map fun n => (sreg n, BitVec.ofNat 64 ((n + 1) * 8))

/-- `struct TaskContext`. -/
def contextSlots : List (Reg × Word) := (ra, 0) :: snSlots

/-- `sizeof(struct TaskContext)`. -/
def contextBytes : ℕ := 13 * 8

/-- `__switch(current_task_cx_ptr2, next_task_cx_ptr2)`. -/
def switchCode : List Instr :=
  [.addi sp sp (-13 * 8),
    .sd sp 0 a0,
    .sd ra 0 sp] ++
  saves sp snSlots ++
  [.ld sp 0 a1,
    .ld ra 0 sp] ++
  loads sp snSlots ++
  [.addi sp sp (13 * 8),
    .jr ra]

/-- The registers that a flow finds again when it is taken up. -/
def keptRegs : List Reg := sp :: contextSlots.map Prod.fst

/-- Kernel addresses are taken for memory addresses. -/
def kernelView : Word → ℕ → ℕ := fun _ a => a

/-- Where the kernel stacks of a set of flows are, and the cells that hold the stack
pointers of the parked ones: `task_cx_ptr` of a task, `idle_task_cx` of a hart. -/
structure Stacks (ι : Type*) where
  bottom : ι → ℕ
  top : ι → ℕ
  cell : ι → ℕ
  room : ∀ t, bottom t + contextBytes ≤ top t
  top_lt : ∀ t, top t < 2 ^ 64
  cell_le : ∀ t, cell t + 8 ≤ 2 ^ 64
  stacks_apart : ∀ t u, t ≠ u → top t ≤ bottom u ∨ top u ≤ bottom t
  cells_apart : ∀ t u, t ≠ u → cell t + 8 ≤ cell u ∨ cell u + 8 ≤ cell t
  cell_apart : ∀ t u, cell t + 8 ≤ bottom u ∨ top u ≤ cell t

variable {ι κ : Type*}

/-- The harts and their memory. `current` is the flow that a hart runs, and `point` holds
the registers with which a parked flow has to go on. -/
structure Switching (ι κ : Type*) where
  mem : Memory
  hart : κ → Hart
  current : κ → ι
  point : ι → Option (Reg → Word)

/-- A step of the system: a task is made, a hart works on, a hart switches to another flow
and parks its own, or leaves its own for good with `a0` at a local variable. -/
inductive SwitchOp (ι κ : Type*)
  | create (t : ι)
  | work (k : κ) (hart : Hart) (mem : Memory)
  | switch (k : κ) (next : ι)
  | exit (k : κ) (next : ι)

/-- The hart and the flow that it takes up. -/
def SwitchOp.takes : SwitchOp ι κ → Option (κ × ι)
  | .switch k next => some (k, next)
  | .exit k next => some (k, next)
  | _ => none

/-- The frame that `add_initproc`, `tcb_new` and `fork` build at the top of the stack. -/
def firstContext (eReturn : Word) : Memory :=
  store64 (memset (fun _ => 0) 0 0 contextBytes) 0 eReturn.toNat

namespace Switching

variable [DecidableEq ι] [DecidableEq κ] (L : Stacks ι) (eReturn : Word)

/-- The registers of a task that has not run yet. -/
def firstPoint (t : ι) : Reg → Word := fun r =>
  if r = ra then eReturn else if r = sp then BitVec.ofNat 64 (L.top t) else 0

/-- `ks_get_top`, `memmove` and the store to `task_cx_ptr`. -/
def create (s : Switching ι κ) (t : ι) : Switching ι κ :=
  let dst := L.top t - contextBytes
  { s with
    mem := store64 (copyBytes s.mem dst (firstContext eReturn) contextBytes) (L.cell t) dst
    point := Function.update s.point t (some (firstPoint L eReturn t)) }

/-- A hart runs `__switch`. -/
def switchTo (s : Switching ι κ) (k : κ) (next : ι) : Switching ι κ :=
  let st := run kernelView switchCode ⟨s.hart k, s.mem⟩
  { mem := st.mem
    hart := Function.update s.hart k st.toHart
    current := Function.update s.current k next
    point := Function.update s.point next none }

/-- The flow that runs on a hart is parked where it is. -/
def park (s : Switching ι κ) (k : κ) : Switching ι κ :=
  { s with point := Function.update s.point (s.current k) (some (s.hart k).x) }

def step (s : Switching ι κ) : SwitchOp ι κ → Switching ι κ
  | .create t => s.create L eReturn t
  | .work k hart mem => { s with mem, hart := Function.update s.hart k hart }
  | .switch k next => (s.park k).switchTo k next
  | .exit k next => s.switchTo k next

/-- The stack pointer of a parked flow, as its cell has it. -/
def parkedSp (s : Switching ι κ) (t : ι) : ℕ := load64 s.mem (L.cell t)

/-- The running flow is on its own stack, with room for a frame. -/
def OnStack (s : Switching ι κ) (k : κ) : Prop :=
  L.bottom (s.current k) + contextBytes ≤ ((s.hart k).x sp).toNat ∧
    ((s.hart k).x sp).toNat ≤ L.top (s.current k)

/-- The steps that the system can take. -/
def Permitted (s : Switching ι κ) : SwitchOp ι κ → Prop
  | .create t => s.point t = none ∧ ∀ k, s.current k ≠ t
  | .work _ _ mem => ∀ t, s.point t ≠ none → ∀ a,
      L.cell t ≤ a ∧ a < L.cell t + 8 ∨
        s.parkedSp L t ≤ a ∧ a < s.parkedSp L t + contextBytes → mem a = s.mem a
  | .switch k next => s.OnStack L k ∧ (s.park k).point next ≠ none ∧
      ((s.hart k).x a0).toNat = L.cell (s.current k) ∧ ((s.hart k).x a1).toNat = L.cell next
  | .exit k next => s.OnStack L k ∧ s.point next ≠ none ∧
      L.bottom (s.current k) ≤ ((s.hart k).x a0).toNat ∧
      ((s.hart k).x a0).toNat + 8 ≤ L.top (s.current k) ∧
      ((s.hart k).x a1).toNat = L.cell next

def Step (s : Switching ι κ) (op : SwitchOp ι κ) (s' : Switching ι κ) : Prop :=
  s.Permitted L op ∧ s' = s.step L eReturn op

/-- At boot every hart runs its idle flow and nothing is parked. -/
def Boot (s : Switching ι κ) : Prop := (∀ t, s.point t = none) ∧ Function.Injective s.current

/-- A flow goes on with the registers `p`. -/
def Resumed (h : Hart) (p : Reg → Word) : Prop := h.pc = p ra ∧ ∀ r ∈ keptRegs, h.x r = p r

/-- The next step that takes a flow up lets it go on with the registers `p`. -/
def GoesOnWith (s : Switching ι κ) (t : ι) (p : Reg → Word) : Prop :=
  ∀ ops s₁ op k s₂, Run (Step L eReturn) s ops s₁ → (∀ o ∈ ops, ∀ j, o.takes ≠ some (j, t)) →
    Step L eReturn s₁ op s₂ → op.takes = some (k, t) → Resumed (s₂.hart k) p

end Switching

/-! ## The code of `__switch` -/

section
variable {st : State}

/-- Memory once the running flow is parked. -/
def parkedMem (h : Hart) (mem : Memory) : Memory :=
  storeAll mem (((h.x a0).toNat, (h.x sp - 104).toNat) ::
    contextSlots.map fun slot => ((h.x sp - 104 + slot.2).toNat, (h.x slot.1).toNat))

/-- Where `__switch` finds the frame to load. -/
def nextFrame (h : Hart) (mem : Memory) : Word :=
  BitVec.ofNat 64 (load64 (parkedMem h mem) (h.x a1).toNat)

theorem slot_ne {slot : Reg × Word} (h : slot ∈ contextSlots) : slot.1 ≠ 0 ∧ slot.1 ≠ sp := by
  have hall : (contextSlots.all fun slot => slot.1 ≠ 0 ∧ slot.1 ≠ sp) = true := by decide
  exact of_decide_eq_true (List.all_eq_true.mp hall slot h)

theorem run_parking :
    run kernelView ([.addi sp sp (-13 * 8), .sd sp 0 a0] ++ saves sp contextSlots) st =
      { st with x := Function.update st.x sp (st.x sp - 104), mem := parkedMem st.toHart st.mem } := by
  have hframe : st.x sp + -13 * 8 = st.x sp - 104 := by
    rw [BitVec.sub_eq_add_neg]
    rfl
  obtain ⟨st₁, hst₁⟩ : ∃ st₁ : State, { st with x := Function.update st.x sp (st.x sp - 104) } =
    st₁ := ⟨_, rfl⟩
  have haddi : exec kernelView st (.addi sp sp (-13 * 8)) = st₁ := by
    rw [← hst₁, exec, State.write_of_ne (by decide), State.read_of_ne (by decide), hframe]
  have hsp : st₁.x sp = st.x sp - 104 := by
    rw [← hst₁]
    exact Function.update_self sp _ st.x
  have hx : ∀ r, r ≠ sp → st₁.x r = st.x r := by
    intro r hr
    rw [← hst₁]
    exact Function.update_of_ne hr ..
  have hzero : st.x a0 + 0 = st.x a0 := BitVec.add_zero _
  have hsd : exec kernelView st₁ (.sd sp 0 a0) =
      { st₁ with mem := store64 st.mem (st.x a0).toNat (st.x sp - 104).toNat } := by
    rw [exec, State.address, kernelView, State.read_of_ne (by decide), State.read_of_ne (by decide),
      hsp, hx a0 (by decide), hzero, ← hst₁]
  rw [run_append, run_cons, run_cons, run_nil, haddi, hsd, run_saves, parkedMem, storeAll_cons]
  have hslots : (contextSlots.map fun slot =>
      (({ st₁ with mem := store64 st.mem (st.x a0).toNat (st.x sp - 104).toNat } : State).address
        kernelView slot.2 sp, (st₁.read slot.1).toNat)) =
      contextSlots.map fun slot => ((st.x sp - 104 + slot.2).toNat, (st.x slot.1).toNat) := by
    apply List.map_congr_left
    intro slot hslot
    obtain ⟨hnz, hne⟩ := slot_ne hslot
    rw [State.address, kernelView, State.read_of_ne (by decide), State.read_of_ne hnz, hsp,
      hx slot.1 hne]
  rw [← hslots, ← hst₁]
  rfl

/-- A flow is taken up from the frame that the cell at `a1` points to. -/
structure TakenUp (st st' : State) (frame : Word) : Prop where
  mem : st'.mem = st.mem
  sp : st'.x sp = frame + 104
  slots : ∀ slot ∈ contextSlots,
    st'.x slot.1 = BitVec.ofNat 64 (load64 st.mem (frame + slot.2).toNat)
  pc : st'.pc = st'.x ra

theorem run_taking :
    TakenUp st (run kernelView (.ld sp 0 a1 :: (loads sp contextSlots ++
      [.addi sp sp (13 * 8), .jr ra])) st) (BitVec.ofNat 64 (load64 st.mem (st.x a1).toNat)) := by
  obtain ⟨frame, hframe⟩ : ∃ frame, BitVec.ofNat 64 (load64 st.mem (st.x a1).toNat) = frame :=
    ⟨_, rfl⟩
  have hzero : st.x a1 + 0 = st.x a1 := BitVec.add_zero _
  have hld : exec kernelView st (.ld sp 0 a1) = st.write sp frame := by
    rw [exec, State.address, kernelView, State.read_of_ne (by decide), hzero, hframe]
  have hloads : Riscv.Loaded kernelView sp contextSlots (st.write sp frame)
      (run kernelView (loads sp contextSlots) (st.write sp frame)) :=
    run_loads (by decide) (by decide) (by decide)
  obtain ⟨st₂, hst₂⟩ : ∃ st₂, run kernelView (loads sp contextSlots) (st.write sp frame) = st₂ :=
    ⟨_, rfl⟩
  rw [hst₂] at hloads
  have hsp : st₂.x sp = frame := by
    rw [hloads.other sp (by decide)]
    exact State.x_write_self (by decide)
  rw [run_cons, hld, run_append, hst₂, run_cons, run_cons, run_nil, hframe]
  constructor
  · rw [exec, exec, State.write_mem, hloads.mem, State.write_mem]
  · rw [exec, exec, State.x_write_self (by decide), State.read_of_ne (by decide), hsp]
    rfl
  · intro slot hslot
    have hne := (slot_ne hslot).2
    rw [exec, exec, State.x_write_of_ne hne, hloads.loaded slot hslot, State.write_mem,
      State.address, kernelView, State.read_of_ne (by decide), State.x_write_self (by decide)]
  · rw [exec, exec]
    exact State.read_of_ne (r := ra) (by decide)

theorem run_switchCode :
    TakenUp { st with mem := parkedMem st.toHart st.mem } (run kernelView switchCode st)
      (nextFrame st.toHart st.mem) := by
  have hcode : switchCode = ([.addi sp sp (-13 * 8), .sd sp 0 a0] ++ saves sp contextSlots) ++
      (.ld sp 0 a1 :: (loads sp contextSlots ++ [.addi sp sp (13 * 8), .jr ra])) := rfl
  rw [hcode, run_append, run_parking]
  have ha1 : Function.update st.x sp (st.x sp - 104) a1 = st.x a1 :=
    Function.update_of_ne (by decide) ..
  have htaking := @run_taking { st with
    x := Function.update st.x sp (st.x sp - 104), mem := parkedMem st.toHart st.mem }
  simp only [ha1] at htaking
  exact ⟨htaking.mem, htaking.sp, htaking.slots, htaking.pc⟩

end

/-! ## Parked flows -/

section
variable {L : Stacks ι} {mem mem' : Memory} {t u : ι} {p : Reg → Word} {h : Hart}

/-- The cell of a parked flow leads to a frame with its registers. -/
structure Parked (L : Stacks ι) (mem : Memory) (t : ι) (p : Reg → Word) : Prop where
  lo : L.bottom t + contextBytes ≤ (p sp).toNat
  hi : (p sp).toNat ≤ L.top t
  cell : load64 mem (L.cell t) = (p sp).toNat - contextBytes
  slots : ∀ slot ∈ contextSlots,
    load64 mem ((p sp).toNat - contextBytes + slot.2.toNat) = (p slot.1).toNat

/-- The memory of a flow: its kernel stack and its cell. -/
def Own (L : Stacks ι) (t : ι) (a : ℕ) : Prop :=
  L.cell t ≤ a ∧ a < L.cell t + 8 ∨ L.bottom t ≤ a ∧ a < L.top t

theorem Own.apart {a : ℕ} (h : Own L t a) (hne : t ≠ u) : ¬ Own L u a := by
  have hstacks := L.stacks_apart t u hne
  have hcells := L.cells_apart t u hne
  have htu := L.cell_apart t u
  have hut := L.cell_apart u t
  unfold Own at *
  omega

theorem slot_le {slot : Reg × Word} (h : slot ∈ contextSlots) :
    slot.2.toNat + 8 ≤ contextBytes := by
  have hall : (contextSlots.all fun slot => slot.2.toNat + 8 ≤ contextBytes) = true := by decide
  exact of_decide_eq_true (List.all_eq_true.mp hall slot h)

theorem slots_apart : contextSlots.Pairwise fun a b =>
    a.2.toNat + 8 ≤ b.2.toNat ∨ b.2.toNat + 8 ≤ a.2.toNat := by decide

theorem Parked.congr (hp : Parked L mem t p) (hmem : ∀ a,
    L.cell t ≤ a ∧ a < L.cell t + 8 ∨
      (p sp).toNat - contextBytes ≤ a ∧ a < (p sp).toNat - contextBytes + contextBytes →
        mem' a = mem a) : Parked L mem' t p := by
  constructor
  · exact hp.lo
  · exact hp.hi
  · rw [← hp.cell]
    apply LittleEndian.load_congr
    intro a hlo hhi
    exact hmem a (Or.inl ⟨hlo, hhi⟩)
  · intro slot hslot
    have hle := slot_le hslot
    rw [← hp.slots slot hslot]
    apply LittleEndian.load_congr
    intro a hlo hhi
    exact hmem a (Or.inr (by omega))

theorem Parked.congr_own (hp : Parked L mem t p) (hmem : ∀ a, Own L t a → mem' a = mem a) :
    Parked L mem' t p := by
  apply hp.congr
  intro a ha
  apply hmem
  have hlo := hp.lo
  have hhi := hp.hi
  unfold Own
  omega

theorem frame_toNat {v : Word} (hv : contextBytes ≤ v.toNat) :
    (v - 104).toNat = v.toNat - contextBytes := by
  have hlt := v.isLt
  rw [contextBytes] at *
  bv_omega

theorem slot_toNat {v : Word} (hv : contextBytes ≤ v.toNat) {slot : Reg × Word}
    (hslot : slot ∈ contextSlots) :
    (v - 104 + slot.2).toNat = v.toNat - contextBytes + slot.2.toNat := by
  have hlt := v.isLt
  have hle := slot_le hslot
  rw [BitVec.toNat_add, frame_toNat hv]
  apply Nat.mod_eq_of_lt
  omega

theorem parkedMem_outside (hsp : contextBytes ≤ (h.x sp).toNat) {a : ℕ}
    (hcell : a < (h.x a0).toNat ∨ (h.x a0).toNat + 8 ≤ a)
    (hframe : a < (h.x sp).toNat - contextBytes ∨ (h.x sp).toNat ≤ a) :
    parkedMem h mem a = mem a := by
  apply storeAll_outside
  intro q hq
  rcases List.mem_cons.mp hq with rfl | hq
  · exact hcell
  · obtain ⟨slot, hslot, rfl⟩ := List.mem_map.mp hq
    have hle := slot_le hslot
    rw [slot_toNat hsp hslot]
    omega

/-- The running flow is parked as it is. -/
theorem parked_parkedMem (hlo : L.bottom t + contextBytes ≤ (h.x sp).toNat)
    (hhi : (h.x sp).toNat ≤ L.top t) (hcell : (h.x a0).toNat = L.cell t) :
    Parked L (parkedMem h mem) t h.x := by
  have hsp : contextBytes ≤ (h.x sp).toNat := by omega
  have happart := L.cell_apart t t
  have hpairs : (((h.x a0).toNat, (h.x sp - 104).toNat) :: contextSlots.map fun slot =>
      ((h.x sp - 104 + slot.2).toNat, (h.x slot.1).toNat)).Pairwise
        fun p q => p.1 + 8 ≤ q.1 ∨ q.1 + 8 ≤ p.1 := by
    rw [List.pairwise_cons, List.pairwise_map]
    constructor
    · intro q hq
      obtain ⟨slot, hslot, rfl⟩ := List.mem_map.mp hq
      have hle := slot_le hslot
      rw [slot_toNat hsp hslot, hcell]
      omega
    · apply slots_apart.imp_of_mem
      intro slot slot' hslot hslot' hoff
      rw [slot_toNat hsp hslot, slot_toNat hsp hslot']
      omega
  constructor
  · exact hlo
  · exact hhi
  · rw [← frame_toNat hsp, ← hcell]
    exact load64_storeAll hpairs List.mem_cons_self (BitVec.isLt _)
  · intro slot hslot
    rw [← slot_toNat hsp hslot]
    apply load64_storeAll hpairs _ (BitVec.isLt _)
    exact List.mem_cons_of_mem _ (List.mem_map.mpr ⟨slot, hslot, rfl⟩)

/-- What is taken up from a parked flow's cell are its registers. -/
theorem Parked.takenUp (hp : Parked L (parkedMem h mem) t p) (hcell : (h.x a1).toNat = L.cell t)
    {st : State} (htaken : TakenUp ⟨h, parkedMem h mem⟩ st (nextFrame h mem)) :
    Switching.Resumed st.toHart p := by
  have hsp : contextBytes ≤ (p sp).toNat := by
    have := hp.lo
    omega
  have hframe : nextFrame h mem = p sp - 104 := by
    rw [nextFrame, hcell, hp.cell, ← frame_toNat hsp]
    exact BitVec.ofNat_toNat ..
  rw [hframe] at htaken
  have hregs : ∀ r ∈ keptRegs, st.x r = p r := by
    intro r hr
    rcases List.mem_cons.mp hr with rfl | hr
    · rw [htaken.sp]
      exact BitVec.sub_add_cancel ..
    · obtain ⟨slot, hslot, rfl⟩ := List.mem_map.mp hr
      rw [htaken.slots slot hslot, slot_toNat hsp hslot, hp.slots slot hslot]
      exact BitVec.ofNat_toNat ..
  constructor
  · rw [htaken.pc]
    exact hregs ra (by decide)
  · exact hregs

end

namespace Switching

variable {L : Stacks ι} {eReturn : Word} {s s₀ s₁ s₂ s' : Switching ι κ}
  {op : SwitchOp ι κ} {ops : List (SwitchOp ι κ)} {t next : ι} {k : κ} {p : Reg → Word}

/-- What holds between two steps: the harts run flows of their own, and a parked flow can
be taken up with the registers it was parked with. -/
structure FlowsOk (L : Stacks ι) (s : Switching ι κ) : Prop where
  current : Function.Injective s.current
  running : ∀ k, s.point (s.current k) = none
  parked : ∀ t p, s.point t = some p → Parked L s.mem t p

theorem FlowsOk.boot (h : Boot s) : FlowsOk L s := by
  constructor
  · exact h.2
  · exact fun k => h.1 _
  · intro t p hp
    rw [h.1 t] at hp
    cases hp

theorem firstContext_load {slot : Reg × Word} (hslot : slot ∈ contextSlots) (t : ι) :
    load64 (firstContext eReturn) slot.2.toNat = (firstPoint L eReturn t slot.1).toNat := by
  rcases List.mem_cons.mp hslot with rfl | hslot
  · rw [firstContext, load64, store64]
    exact (LittleEndian.load_store ..).trans (Nat.mod_eq_of_lt eReturn.isLt)
  · have hall : (snSlots.all fun slot => 8 ≤ slot.2.toNat ∧ slot.1 ≠ ra ∧ slot.1 ≠ sp) = true := by
      decide
    obtain ⟨hoff, hra, hsp⟩ := of_decide_eq_true (List.all_eq_true.mp hall slot hslot)
    rw [firstPoint, if_neg hra, if_neg hsp, firstContext, load64, store64,
      LittleEndian.load_store_of_disjoint (by omega)]
    apply LittleEndian.load_zero
    intro a _ _
    rw [memset]
    split <;> rfl

/-- What a hart stores at a switch is no concern of the flows that are parked already. -/
theorem FlowsOk.parked_switch (h : FlowsOk L s) (hstack : s.OnStack L k)
    (hown : ∀ a, ((s.hart k).x a0).toNat ≤ a ∧ a < ((s.hart k).x a0).toNat + 8 →
      Own L (s.current k) a) (ht : s.point t = some p) :
    Parked L (parkedMem (s.hart k) s.mem) t p := by
  obtain ⟨hlo, hhi⟩ := hstack
  have hne : t ≠ s.current k := by
    rintro rfl
    rw [h.running k] at ht
    cases ht
  apply (h.parked t p ht).congr_own
  intro a ha
  have hnot := ha.apart hne
  apply parkedMem_outside (by omega)
  · have hcell := mt (hown a) hnot
    omega
  · unfold Own at hnot
    omega

section
variable [DecidableEq ι]

theorem create_mem : (s.create L eReturn t).mem = store64 (copyBytes s.mem
    (L.top t - contextBytes) (firstContext eReturn) contextBytes) (L.cell t)
      (L.top t - contextBytes) := rfl

theorem create_point_self :
    (s.create L eReturn t).point t = some (firstPoint L eReturn t) := Function.update_self ..

theorem create_point_of_ne {u : ι} (hne : u ≠ t) :
    (s.create L eReturn t).point u = s.point u := Function.update_of_ne hne ..

theorem park_point_self : (s.park k).point (s.current k) = some (s.hart k).x :=
  Function.update_self ..

theorem park_point_of_ne (hne : t ≠ s.current k) : (s.park k).point t = s.point t :=
  Function.update_of_ne hne ..

theorem create_outside {a : ℕ} (ha : ¬ Own L t a) : (s.create L eReturn t).mem a = s.mem a := by
  have hroom := L.room t
  unfold Own at ha
  rw [create_mem, store64, LittleEndian.store_outside (by omega), copyBytes_outside (by omega)]

/-- A new task is parked at the top of its kernel stack. -/
theorem parked_create : Parked L (s.create L eReturn t).mem t (firstPoint L eReturn t) := by
  have hroom := L.room t
  have htop := L.top_lt t
  have happart := L.cell_apart t t
  have hsp : (firstPoint L eReturn t sp).toNat = L.top t := by
    rw [firstPoint, if_neg (by decide), if_pos rfl, BitVec.toNat_ofNat, Nat.mod_eq_of_lt htop]
  constructor
  · rw [hsp]
    exact hroom
  · rw [hsp]
  · rw [hsp, create_mem, load64, store64, LittleEndian.load_store]
    apply Nat.mod_eq_of_lt
    omega
  · intro slot hslot
    have hle := slot_le hslot
    rw [hsp, create_mem, ← firstContext_load hslot, load64, store64,
      LittleEndian.load_store_of_disjoint (by omega)]
    rw [← LittleEndian.load_shift]
    apply LittleEndian.load_congr
    intro a _ ha
    rw [copyBytes_inside (by omega) (by omega), Nat.add_sub_cancel_left]

theorem FlowsOk.create (h : FlowsOk L s) (hcurrent : ∀ k, s.current k ≠ t) :
    FlowsOk L (s.create L eReturn t) := by
  constructor
  · exact h.current
  · intro k
    exact (create_point_of_ne (hcurrent k)).trans (h.running k)
  · intro u p hu
    by_cases hut : u = t
    · subst hut
      rw [create_point_self, Option.some.injEq] at hu
      subst hu
      exact parked_create
    · rw [create_point_of_ne hut] at hu
      apply (h.parked u p hu).congr_own
      intro a ha
      exact create_outside (ha.apart hut)

end

section
variable [DecidableEq ι] [DecidableEq κ]

theorem FlowsOk.work (h : FlowsOk L s) {hart : Hart} {mem : Memory}
    (hp : s.Permitted L (.work k hart mem)) :
    FlowsOk L { s with mem, hart := Function.update s.hart k hart } := by
  constructor
  · exact h.current
  · exact h.running
  · intro t p ht
    have hpark := h.parked t p ht
    apply hpark.congr
    intro a ha
    apply hp t (by rw [ht]; exact Option.some_ne_none p) a
    rw [parkedSp, hpark.cell]
    exact ha

theorem switchTo_mem : (s.switchTo k next).mem =
    (run kernelView switchCode ⟨s.hart k, s.mem⟩).mem := by
  rw [switchTo]

theorem switchTo_point_of_ne (hne : t ≠ next) :
    (s.switchTo k next).point t = s.point t := Function.update_of_ne hne ..

/-- A switch keeps the invariant, and the flow taken up goes on where it was parked. -/
theorem switchTo_ok (hcurrent : Function.Injective s.current)
    (hrunning : ∀ j, j ≠ k → s.point (s.current j) = none)
    (hparked : ∀ t p, s.point t = some p → Parked L (parkedMem (s.hart k) s.mem) t p)
    (ha1 : ((s.hart k).x a1).toNat = L.cell next) (hnext : s.point next = some p) :
    FlowsOk L (s.switchTo k next) ∧ Resumed ((s.switchTo k next).hart k) p := by
  have htaken := @run_switchCode ⟨s.hart k, s.mem⟩
  have hhart : (s.switchTo k next).hart k =
      (run kernelView switchCode ⟨s.hart k, s.mem⟩).toHart := Function.update_self ..
  have hmem : (s.switchTo k next).mem = parkedMem (s.hart k) s.mem := by
    rw [switchTo_mem]
    exact htaken.mem
  have hself : (s.switchTo k next).current k = next := Function.update_self ..
  have hother : ∀ j, j ≠ k → (s.switchTo k next).current j = s.current j :=
    fun j hj => Function.update_of_ne hj ..
  have hfree : ∀ j, j ≠ k → s.current j ≠ next := by
    intro j hj heq
    have hnone := hrunning j hj
    rw [heq, hnext] at hnone
    cases hnone
  have hgone : (s.switchTo k next).point next = none := Function.update_self ..
  constructor
  · constructor
    · intro i j hij
      by_cases hi : i = k <;> by_cases hj : j = k
      · rw [hi, hj]
      · rw [hi, hself, hother j hj] at hij
        exact absurd hij.symm (hfree j hj)
      · rw [hj, hself, hother i hi] at hij
        exact absurd hij (hfree i hi)
      · rw [hother i hi, hother j hj] at hij
        exact hcurrent hij
    · intro j
      by_cases hj : j = k
      · rw [hj, hself, hgone]
      · rw [hother j hj, switchTo_point_of_ne (hfree j hj)]
        exact hrunning j hj
    · intro u q hu
      have hne : u ≠ next := by
        rintro rfl
        rw [hgone] at hu
        cases hu
      rw [switchTo_point_of_ne hne] at hu
      rw [hmem]
      exact hparked u q hu
  · rw [hhart]
    exact (hparked next p hnext).takenUp ha1 htaken

theorem FlowsOk.switch (h : FlowsOk L s) (hp : s.Permitted L (.switch k next))
    (hnext : (s.park k).point next = some p) :
    FlowsOk L ((s.park k).switchTo k next) ∧
      Resumed (((s.park k).switchTo k next).hart k) p := by
  obtain ⟨hstack, -, ha0, ha1⟩ := hp
  have hcurrent : Function.Injective (s.park k).current := h.current
  apply switchTo_ok hcurrent _ _ ha1 hnext
  · intro j hj
    have hne : s.current j ≠ s.current k := fun heq => hj (h.current heq)
    exact (park_point_of_ne hne).trans (h.running j)
  · intro t q ht
    by_cases htk : t = s.current k
    · rw [htk, park_point_self, Option.some.injEq] at ht
      rw [htk, ← ht]
      exact parked_parkedMem hstack.1 hstack.2 ha0
    · rw [park_point_of_ne htk] at ht
      apply h.parked_switch hstack _ ht
      intro a ha
      rw [ha0] at ha
      exact Or.inl ha

theorem FlowsOk.exit (h : FlowsOk L s) (hp : s.Permitted L (.exit k next))
    (hnext : s.point next = some p) :
    FlowsOk L (s.switchTo k next) ∧ Resumed ((s.switchTo k next).hart k) p := by
  obtain ⟨hstack, -, hlo, hhi, ha1⟩ := hp
  apply switchTo_ok h.current (fun j _ => h.running j) _ ha1 hnext
  intro t q ht
  apply h.parked_switch hstack _ ht
  intro a ha
  right
  omega

theorem FlowsOk.step (h : FlowsOk L s) (hstep : Step L eReturn s op s') : FlowsOk L s' := by
  obtain ⟨hp, rfl⟩ := hstep
  cases op with
  | create t => exact h.create hp.2
  | work k hart mem => exact h.work hp
  | switch k next =>
      obtain ⟨p, hnext⟩ := Option.ne_none_iff_exists'.mp hp.2.1
      exact (h.switch hp hnext).1
  | exit k next =>
      obtain ⟨p, hnext⟩ := Option.ne_none_iff_exists'.mp hp.2.1
      exact (h.exit hp hnext).1

/-- A flow that is parked and not taken up stays parked as it is. -/
theorem FlowsOk.point_kept (h : FlowsOk L s) (hstep : Step L eReturn s op s')
    (htakes : ∀ j, op.takes ≠ some (j, t)) (ht : s.point t = some p) : s'.point t = some p := by
  obtain ⟨hp, rfl⟩ := hstep
  have hrun : ∀ k, t ≠ s.current k := by
    rintro k rfl
    rw [h.running k] at ht
    cases ht
  cases op with
  | create u =>
      have hne : t ≠ u := by
        rintro rfl
        rw [hp.1] at ht
        cases ht
      exact (create_point_of_ne hne).trans ht
  | work k hart mem => exact ht
  | switch k next =>
      have hne : t ≠ next := by
        rintro rfl
        exact htakes k rfl
      rw [Switching.step, switchTo_point_of_ne hne, park_point_of_ne (hrun k)]
      exact ht
  | exit k next =>
      have hne : t ≠ next := by
        rintro rfl
        exact htakes k rfl
      rw [Switching.step, switchTo_point_of_ne hne]
      exact ht

/-- The step that takes a parked flow up. -/
theorem FlowsOk.resumed (h : FlowsOk L s) (hstep : Step L eReturn s op s')
    (htakes : op.takes = some (k, t)) (ht : s.point t = some p) : Resumed (s'.hart k) p := by
  obtain ⟨hp, rfl⟩ := hstep
  have hne : ∀ k, t ≠ s.current k := by
    rintro k rfl
    rw [h.running k] at ht
    cases ht
  cases op with
  | create u => cases htakes
  | work k hart mem => cases htakes
  | switch k next =>
      obtain ⟨rfl, rfl⟩ := Prod.mk.inj (Option.some.inj htakes)
      apply (h.switch hp _).2
      rw [park_point_of_ne (hne k)]
      exact ht
  | exit k next =>
      obtain ⟨rfl, rfl⟩ := Prod.mk.inj (Option.some.inj htakes)
      exact (h.exit hp ht).2

/-- A parked flow goes on with the registers it was parked with, whatever happens before. -/
theorem FlowsOk.goesOnWith (h : FlowsOk L s) (ht : s.point t = some p) :
    GoesOnWith L eReturn s t p := by
  intro ops s₁ op k s₂ hrun
  induction hrun with
  | done s => exact fun _ hstep htakes => h.resumed hstep htakes ht
  | step hs _ ih =>
      intro hkept hstep htakes
      apply ih (h.step hs) (h.point_kept hs (hkept _ List.mem_cons_self) ht) _ hstep htakes
      exact fun o ho => hkept o (List.mem_cons_of_mem _ ho)

/-- A flow that calls `__switch` goes on with the `ra`, `sp` and `s0` to `s11` of its call,
at once if it switched to itself and else when it is next taken up; a new task starts at
`e_return` with an empty kernel stack. -/
theorem goes_on_as_parked (hboot : Boot s₀) (hrun : Run (Step L eReturn) s₀ ops s) :
    (∀ k next s₁, Step L eReturn s (.switch k next) s₁ →
      (next = s.current k → Resumed (s₁.hart k) (s.hart k).x) ∧
      (next ≠ s.current k → GoesOnWith L eReturn s₁ (s.current k) (s.hart k).x)) ∧
    ∀ t s₁, Step L eReturn s (.create t) s₁ →
      GoesOnWith L eReturn s₁ t (firstPoint L eReturn t) := by
  have hok : FlowsOk L s := hrun.invariant (fun s op s' h hs => h.step hs) (FlowsOk.boot hboot)
  constructor
  · intro k next s₁ hswitch
    have hok₁ := hok.step hswitch
    obtain ⟨hp, rfl⟩ := hswitch
    constructor
    · rintro rfl
      exact (hok.switch hp park_point_self).2
    · intro hne
      apply hok₁.goesOnWith
      rw [Switching.step, switchTo_point_of_ne (Ne.symm hne), park_point_self]
  · intro t s₁ hcreate
    have hok₁ := hok.step hcreate
    obtain ⟨-, rfl⟩ := hcreate
    exact hok₁.goesOnWith create_point_self

end

/-- The idle flow `false` on its boot stack, and a task. -/
def twoStacks : Stacks Bool where
  bottom t := if t then 0x80011000 else 0x80001000
  top t := if t then 0x80012000 else 0x80002000
  cell t := if t then 0x80300000 else 0x80200000
  room := by decide
  top_lt := by decide
  cell_le := by decide
  stacks_apart := by decide
  cells_apart := by decide
  cell_apart := by decide

/-- A hart that is about to call `__switch` for the task from its idle flow. -/
def idleHart : Hart :=
  ⟨.supervisor, 0x80020000,
    fun r => if r = sp then 0x80001f00 else if r = a0 then 0x80200000 else
      if r = a1 then 0x80300000 else 7,
    fun _ => 0⟩

theorem new_task_starts_at_e_return :
    let s₀ : Switching Bool Unit := ⟨fun _ => 0, fun _ => idleHart, fun _ => false, fun _ => none⟩
    let s₁ := s₀.step twoStacks 0x80024000 (.create true)
    let s₂ := s₁.step twoStacks 0x80024000 (.switch () true)
    Step twoStacks 0x80024000 s₀ (.create true) s₁ ∧
      Step twoStacks 0x80024000 s₁ (.switch () true) s₂ ∧
      (s₂.hart ()).pc = 0x80024000 ∧ (s₂.hart ()).x sp = 0x80012000 := by
  intro s₀ s₁ s₂
  have hcreate : Step twoStacks 0x80024000 s₀ (.create true) s₁ :=
    ⟨⟨rfl, fun _ => Bool.false_ne_true⟩, rfl⟩
  have hpoint : s₁.point true = some (firstPoint twoStacks 0x80024000 true) := create_point_self
  have hne : true ≠ s₁.current () := by decide
  have hswitch : Step twoStacks 0x80024000 s₁ (.switch () true) s₂ := by
    refine ⟨⟨⟨by decide, by decide⟩, ?_, rfl, rfl⟩, rfl⟩
    rw [park_point_of_ne hne, hpoint]
    exact Option.some_ne_none _
  have hboot : Boot s₀ := ⟨fun _ => rfl, fun _ _ _ => rfl⟩
  obtain ⟨hpc, hregs⟩ := (goes_on_as_parked hboot (.done s₀)).2 true s₁
    hcreate [] s₁ (.switch () true) () s₂ (.done s₁) (by simp) hswitch rfl
  exact ⟨hcreate, hswitch, hpc, hregs sp (by decide)⟩

end Switching

end K210Os
