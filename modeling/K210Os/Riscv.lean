import K210Os.Memory
import Mathlib.Algebra.GroupWithZero.Nat
import Mathlib.Logic.Function.Basic
import Mathlib.Data.List.Nodup

/-!
# Straight-line RISC-V code

The integer registers of a hart, the supervisor registers that take part in a trap, and
the instructions that save and restore them. A piece of code is a list of instructions of
which only the last may jump. Loads and stores go through `view`, the map from addresses
to memory that a value of `satp` stands for; fences have no effect here.
-/

namespace K210Os.Riscv

abbrev Word := BitVec 64

/-- The registers `x0` to `x31`. -/
abbrev Reg := Fin 32

instance neZero_card_reg : NeZero 32 := ⟨by decide⟩

abbrev ra : Reg := 1

abbrev sp : Reg := 2

abbrev tp : Reg := 4

abbrev t0 : Reg := 5

abbrev t1 : Reg := 6

abbrev a0 : Reg := 10

abbrev a1 : Reg := 11

/-- The registers `s0` to `s11`. -/
def sreg (n : ℕ) : Reg := if n < 2 then Fin.ofNat 32 (8 + n) else Fin.ofNat 32 (16 + n)

inductive Csr
  | sstatus | sepc | stval | scause | sscratch | satp
  deriving DecidableEq

inductive Mode
  | user | supervisor
  deriving DecidableEq

structure Hart where
  mode : Mode
  pc : Word
  x : Reg → Word
  csr : Csr → Word

/-- A hart together with the memory it works on. -/
structure State extends Hart where
  mem : Memory

def State.read (s : State) (r : Reg) : Word := if r = 0 then 0 else s.x r

/-- Writes to `x0` are dropped. -/
def State.write (s : State) (r : Reg) (v : Word) : State :=
  if r = 0 then s else { s with x := Function.update s.x r v }

def State.writeCsr (s : State) (c : Csr) (v : Word) : State :=
  { s with csr := Function.update s.csr c v }

inductive Instr
  | addi (rd rs : Reg) (imm : Word)
  | sd (rs : Reg) (offset : Word) (base : Reg)
  | ld (rd : Reg) (offset : Word) (base : Reg)
  | csrrw (rd : Reg) (csr : Csr) (rs : Reg)
  | csrr (rd : Reg) (csr : Csr)
  | csrw (csr : Csr) (rs : Reg)
  | fence
  | jr (rs : Reg)
  | sret

/-- The bits `SIE`, `SPIE` and `SPP` of `sstatus`. -/
abbrev sie : ℕ := 1

abbrev spie : ℕ := 5

abbrev spp : ℕ := 8

def setBit (v : Word) (i : ℕ) (b : Bool) : Word :=
  if b then v ||| BitVec.twoPow 64 i else v &&& ~~~BitVec.twoPow 64 i

/-- What `sret` makes of `sstatus`. -/
def sretStatus (v : Word) : Word :=
  setBit (setBit (setBit v sie (v.getLsbD spie)) spie true) spp false

/-- What a trap from user mode makes of `sstatus`. -/
def trapStatus (v : Word) : Word :=
  setBit (setBit (setBit v spie (v.getLsbD sie)) sie false) spp false

theorem getLsbD_setBit {v : Word} {i j : ℕ} {b : Bool} (hi : i < 64) (hj : j < 64) :
    (setBit v i b).getLsbD j = if j = i then b else v.getLsbD j := by
  unfold setBit
  split <;> rename_i hb <;> by_cases hij : j = i
  all_goals simp [hb, hij, hi, hj]

/-- A trap and the return from it leave `sstatus` as it was, if it came from a return. -/
theorem sretStatus_trapStatus (v : Word) :
    sretStatus (trapStatus (sretStatus v)) = sretStatus v := by
  apply BitVec.eq_of_getLsbD_eq
  intro i hi
  have hsie : sie < 64 := by decide
  have hspie : spie < 64 := by decide
  have hspp : spp < 64 := by decide
  simp only [sretStatus, trapStatus, getLsbD_setBit hsie, getLsbD_setBit hspie,
    getLsbD_setBit hspp, hi, hsie, hspie]
  split_ifs <;> simp_all

section
variable (view : Word → ℕ → ℕ)

def State.address (s : State) (offset : Word) (base : Reg) : ℕ :=
  view (s.csr .satp) (s.read base + offset).toNat

def exec (s : State) : Instr → State
  | .addi rd rs imm => s.write rd (s.read rs + imm)
  | .sd rs offset base =>
      { s with mem := store64 s.mem (s.address view offset base) (s.read rs).toNat }
  | .ld rd offset base =>
      s.write rd (BitVec.ofNat 64 (load64 s.mem (s.address view offset base)))
  | .csrrw rd csr rs => (s.write rd (s.csr csr)).writeCsr csr (s.read rs)
  | .csrr rd csr => s.write rd (s.csr csr)
  | .csrw csr rs => s.writeCsr csr (s.read rs)
  | .fence => s
  | .jr rs => { s with pc := s.read rs }
  | .sret => { s.writeCsr .sstatus (sretStatus (s.csr .sstatus)) with
      pc := s.csr .sepc
      mode := if (s.csr .sstatus).getLsbD spp then .supervisor else .user }

def run (code : List Instr) (s : State) : State := code.foldl (exec view) s

end

/-- Stores of registers at offsets from a base, and the loads back. -/
def saves (base : Reg) (slots : List (Reg × Word)) : List Instr :=
  slots.map fun slot => .sd slot.1 slot.2 base

def loads (base : Reg) (slots : List (Reg × Word)) : List Instr :=
  slots.map fun slot => .ld slot.1 slot.2 base

/-! ## Registers -/

section
variable {st : State} {r q : Reg} {v : Word}

theorem State.read_of_ne (hr : r ≠ 0) : st.read r = st.x r := if_neg hr

theorem State.write_of_ne (hr : r ≠ 0) :
    st.write r v = { st with x := Function.update st.x r v } := if_neg hr

@[simp] theorem State.write_mem : (st.write r v).mem = st.mem := by
  unfold State.write
  split <;> rfl

@[simp] theorem State.write_csr : (st.write r v).csr = st.csr := by
  unfold State.write
  split <;> rfl

@[simp] theorem State.write_pc : (st.write r v).pc = st.pc := by
  unfold State.write
  split <;> rfl

@[simp] theorem State.write_mode : (st.write r v).mode = st.mode := by
  unfold State.write
  split <;> rfl

theorem State.x_write_self (hr : r ≠ 0) : (st.write r v).x r = v := by
  rw [State.write_of_ne hr]
  exact Function.update_self ..

theorem State.x_write_of_ne (hq : q ≠ r) : (st.write r v).x q = st.x q := by
  unfold State.write
  split
  · rfl
  · exact Function.update_of_ne hq ..

theorem State.read_write_of_ne (hq : q ≠ r) : (st.write r v).read q = st.read q := by
  rw [State.read, State.read, State.x_write_of_ne hq]

end

/-! ## Code -/

section
variable {view : Word → ℕ → ℕ} {st : State} {code rest : List Instr} {i : Instr}

@[simp] theorem run_nil : run view [] st = st := rfl

@[simp] theorem run_cons : run view (i :: code) st = run view code (exec view st i) := rfl

@[simp] theorem run_append : run view (code ++ rest) st = run view rest (run view code st) :=
  List.foldl_append ..

end

section
variable {view : Word → ℕ → ℕ} {st : State} {c : Csr}

theorem exec_sret_x : (exec view st .sret).x = st.x := rfl

theorem exec_sret_mem : (exec view st .sret).mem = st.mem := rfl

theorem exec_sret_pc : (exec view st .sret).pc = st.csr .sepc := rfl

attribute [local simp] exec

theorem exec_sret_sstatus :
    (exec view st .sret).csr .sstatus = sretStatus (st.csr .sstatus) := by
  simp only [exec, State.writeCsr, Function.update_self]

theorem exec_sret_csr (hc : c ≠ .sstatus) : (exec view st .sret).csr c = st.csr c := by
  simp only [exec, State.writeCsr, Function.update_of_ne hc]

end

/-! ## Many stores -/

/-- Values stored one after another, each at its address. -/
def storeAll (mem : Memory) (l : List (ℕ × ℕ)) : Memory :=
  l.foldl (fun m p => store64 m p.1 p.2) mem

section
variable {mem : Memory} {l : List (ℕ × ℕ)} {a v : ℕ}

@[simp] theorem storeAll_nil (mem : Memory) : storeAll mem [] = mem := rfl

@[simp] theorem storeAll_cons (mem : Memory) (p : ℕ × ℕ) (l : List (ℕ × ℕ)) :
    storeAll mem (p :: l) = storeAll (store64 mem p.1 p.2) l := rfl

theorem storeAll_append (mem : Memory) (l l' : List (ℕ × ℕ)) :
    storeAll mem (l ++ l') = storeAll (storeAll mem l) l' := List.foldl_append ..

theorem storeAll_outside (h : ∀ p ∈ l, a < p.1 ∨ p.1 + 8 ≤ a) : storeAll mem l a = mem a := by
  induction l generalizing mem with
  | nil => rfl
  | cons p l ih =>
      rw [storeAll_cons, ih fun q hq => h q (List.mem_cons_of_mem _ hq)]
      exact LittleEndian.store_outside (h p List.mem_cons_self)

theorem load64_storeAll_of_apart (h : ∀ p ∈ l, a + 8 ≤ p.1 ∨ p.1 + 8 ≤ a) :
    load64 (storeAll mem l) a = load64 mem a := by
  apply LittleEndian.load_congr
  intro b hlo hhi
  apply storeAll_outside
  intro p hp
  have := h p hp
  omega

theorem load64_storeAll (hl : l.Pairwise fun p q => p.1 + 8 ≤ q.1 ∨ q.1 + 8 ≤ p.1)
    (hmem : (a, v) ∈ l) (hv : v < 2 ^ 64) : load64 (storeAll mem l) a = v := by
  induction l generalizing mem with
  | nil => cases hmem
  | cons p l ih =>
      obtain ⟨hp, hl⟩ := List.pairwise_cons.mp hl
      rcases List.mem_cons.mp hmem with rfl | hmem
      · rw [storeAll_cons, load64_storeAll_of_apart hp, load64, store64, LittleEndian.load_store]
        exact Nat.mod_eq_of_lt hv
      · exact ih hl hmem

end

/-! ## Saving and restoring -/

section
variable {view : Word → ℕ → ℕ} {st : State} {base : Reg}
  {slots : List (Reg × Word)}

theorem run_saves :
    run view (saves base slots) st =
      { st with
        mem := storeAll st.mem
          (slots.map fun slot => (st.address view slot.2 base, (st.read slot.1).toNat)) } := by
  induction slots generalizing st with
  | nil => rfl
  | cons slot slots ih =>
      rw [saves, List.map_cons, run_cons]
      exact ih

/-- What loads from a base that is not loaded itself do. -/
structure Loaded (view : Word → ℕ → ℕ) (base : Reg) (slots : List (Reg × Word))
    (st st' : State) : Prop where
  mem : st'.mem = st.mem
  csr : st'.csr = st.csr
  pc : st'.pc = st.pc
  mode : st'.mode = st.mode
  loaded : ∀ slot ∈ slots,
    st'.x slot.1 = BitVec.ofNat 64 (load64 st.mem (st.address view slot.2 base))
  other : ∀ r, r ∉ slots.map Prod.fst → st'.x r = st.x r

theorem run_loads (hnodup : (slots.map Prod.fst).Nodup) (hzero : 0 ∉ slots.map Prod.fst)
    (hbase : base ∉ slots.map Prod.fst) :
    Loaded view base slots st (run view (loads base slots) st) := by
  induction slots generalizing st with
  | nil => exact ⟨rfl, rfl, rfl, rfl, by simp, fun _ _ => rfl⟩
  | cons slot slots ih =>
      rw [List.map_cons] at hnodup hzero hbase
      obtain ⟨hslot, hnodup⟩ := List.nodup_cons.mp hnodup
      obtain ⟨hslot₀, hzero⟩ := not_or.mp (mt List.mem_cons.mpr hzero)
      obtain ⟨hslotb, hbase⟩ := not_or.mp (mt List.mem_cons.mpr hbase)
      have hrest := @ih (exec view st (.ld slot.1 slot.2 base)) hnodup hzero hbase
      rw [loads, List.map_cons, run_cons]
      constructor
      · rw [← loads, hrest.mem]
        exact State.write_mem
      · rw [← loads, hrest.csr]
        exact State.write_csr
      · rw [← loads, hrest.pc]
        exact State.write_pc
      · rw [← loads, hrest.mode]
        exact State.write_mode
      · intro q hq
        rw [← loads]
        rcases List.mem_cons.mp hq with rfl | hq
        · rw [hrest.other _ hslot]
          exact State.x_write_self (Ne.symm hslot₀)
        · rw [hrest.loaded q hq]
          simp only [exec, State.address, State.write_mem, State.write_csr,
            State.read_write_of_ne hslotb]
      · intro q hq
        rw [List.map_cons, List.mem_cons, not_or] at hq
        rw [← loads, hrest.other q hq.2]
        exact State.x_write_of_ne hq.1

end

end K210Os.Riscv
