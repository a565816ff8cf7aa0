import K210Os.Riscv
import K210Os.UserCopy

/-!
# Entering and leaving the kernel

A trap from user mode runs `__saveall`, which stores the registers in the trap context of
the task and enters the handler; `e_return` jumps to `__restore`, which loads them and
returns to user mode. Both leave `x4` alone: it is `tp`, in which the kernel keeps the
number of the hart.
-/

namespace K210Os

open Riscv

/-- The words of `struct context` after the registers `x0` to `x31`. -/
abbrev statusWord : ℕ := 32

abbrev epcWord : ℕ := 33

abbrev tvalWord : ℕ := 34

abbrev causeWord : ℕ := 35

abbrev kernelSatpWord : ℕ := 36

abbrev kernelSpWord : ℕ := 37

abbrev trapHandleWord : ℕ := 38

/-- `SAVE reg, offset` and `LOAD reg, offset` take the offset in words. -/
def wordOffset (n : ℕ) : Word := BitVec.ofNat 64 (n * 8)

def save (r : Reg) (n : ℕ) : Instr := .sd r (wordOffset n) sp

def load (r : Reg) (n : ℕ) : Instr := .ld r (wordOffset n) sp

/-- `x1`, `x3` and `x5` to `x31`, each with its place in the context. -/
def generalWords : List ℕ := 1 :: 3 :: List.range' 5 27

def generalSlots : List (Reg × Word) := generalWords.map fun n => (Fin.ofNat 32 n, wordOffset n)

def fences : List Instr := List.replicate 5 .fence

/-- `__saveall` after the general registers. -/
def saveallTail : List Instr :=
  [.csrr (sreg 0) .sscratch,
    save (sreg 0) 2,
    .csrr (sreg 1) .sstatus,
    .csrr (sreg 2) .sepc,
    .csrr (sreg 3) .stval,
    .csrr (sreg 4) .scause,
    save (sreg 1) statusWord,
    save (sreg 2) epcWord,
    save (sreg 3) tvalWord,
    save (sreg 4) causeWord,
    load t0 kernelSatpWord,
    load t1 trapHandleWord,
    load sp kernelSpWord,
    .csrw .satp t0] ++
  fences ++
  [.jr t1]

def saveallCode : List Instr := .csrrw sp .sscratch sp :: (saves sp generalSlots ++ saveallTail)

/-- `__restore` before the general registers. -/
def restoreHead : List Instr :=
  [.csrw .satp a1] ++
  fences ++
  [.csrw .sscratch a0,
    .addi sp a0 0,
    load (sreg 1) statusWord,
    load (sreg 2) epcWord,
    load (sreg 3) tvalWord,
    load (sreg 4) causeWord,
    .csrw .sstatus (sreg 1),
    .csrw .sepc (sreg 2),
    .csrw .stval (sreg 3),
    .csrw .scause (sreg 4)]

def restoreCode : List Instr := restoreHead ++ (loads sp generalSlots ++ [load sp 2, .sret])

/-- What the hart does at a trap from user mode. -/
def takeTrap (u : State) (stvec cause tval : Word) : State :=
  { ((((u.writeCsr .sepc u.pc).writeCsr .scause cause).writeCsr .stval tval).writeCsr .sstatus
      (trapStatus (u.csr .sstatus))) with
    mode := .supervisor
    pc := stvec }

/-- A word of a context in memory. -/
def word (mem : Memory) (page n : ℕ) : Word := BitVec.ofNat 64 (load64 mem (page + n * 8))

/-- `app_context_init`, with the value of `sstatus` it reads. -/
def appContextInit (sstatus entry uSp kSatp kSp trapHandle : Word) (n : ℕ) : Word :=
  if n = statusWord then setBit (setBit sstatus spp false) spie true
  else if n = 2 then uSp
  else if n = epcWord then entry
  else if n = kernelSatpWord then kSatp
  else if n = kernelSpWord then kSp
  else if n = trapHandleWord then trapHandle
  else 0

section
variable {view : Word → ℕ → ℕ} {page : ℕ} {st : State}

/-- What the end of `__saveall` leaves behind. -/
structure TailSaved (page : ℕ) (st st' : State) : Prop where
  mem : st'.mem = storeAll st.mem
    ([(2, st.csr .sscratch), (statusWord, st.csr .sstatus), (epcWord, st.csr .sepc),
      (tvalWord, st.csr .stval), (causeWord, st.csr .scause)].map fun p =>
        (page + p.1 * 8, p.2.toNat))
  mode : st'.mode = st.mode
  pc : st'.pc = word st'.mem page trapHandleWord
  sp : st'.x sp = word st'.mem page kernelSpWord
  tp : st'.x tp = st.x tp
  satp : st'.csr .satp = word st'.mem page kernelSatpWord

theorem run_saveallTail
    (haddr : ∀ n < 39, view (st.csr .satp) (st.x sp + wordOffset n).toNat = page + n * 8) :
    TailSaved page st (run view saveallTail st) := by
  constructor <;>
  simp [saveallTail, fences, exec, save, load, State.write, State.read, State.writeCsr, sreg, sp,
    t0, t1, tp, State.address, haddr, -BitVec.toNat_add, word, statusWord, epcWord, tvalWord,
    causeWord, kernelSatpWord, kernelSpWord, trapHandleWord]

/-- What the beginning of `__restore` leaves behind. -/
structure HeadRestored (page : ℕ) (st st' : State) : Prop where
  mem : st'.mem = st.mem
  sp : st'.x sp = st.x a0
  tp : st'.x tp = st.x tp
  satp : st'.csr .satp = st.x a1
  sstatus : st'.csr .sstatus = word st.mem page statusWord
  sepc : st'.csr .sepc = word st.mem page epcWord

theorem run_restoreHead
    (haddr : ∀ n < 39, view (st.x a1) (st.x a0 + wordOffset n).toNat = page + n * 8) :
    HeadRestored page st (run view restoreHead st) := by
  constructor <;>
  simp [restoreHead, fences, exec, load, State.write, State.read, State.writeCsr, sreg, sp, a0, a1,
    tp, State.address, haddr, -BitVec.toNat_add, word, statusWord, epcWord, tvalWord,
    causeWord]

end

/-! ## The context in memory -/

section
variable {mem : Memory} {page n : ℕ} {l : List (ℕ × Word)}

/-- Words stored into a context. -/
def storeWords (mem : Memory) (page : ℕ) (l : List (ℕ × Word)) : Memory :=
  storeAll mem (l.map fun p => (page + p.1 * 8, p.2.toNat))

theorem word_storeWords {v : Word} (hl : (l.map Prod.fst).Nodup) (hmem : (n, v) ∈ l) :
    word (storeWords mem page l) page n = v := by
  have hapart : (l.map fun p => (page + p.1 * 8, p.2.toNat)).Pairwise
      fun p q => p.1 + 8 ≤ q.1 ∨ q.1 + 8 ≤ p.1 := by
    rw [List.pairwise_map]
    apply (List.pairwise_map.mp hl).imp
    intro p q hne
    omega
  have hload : load64 (storeWords mem page l) (page + n * 8) = v.toNat :=
    load64_storeAll hapart (List.mem_map.mpr ⟨(n, v), hmem, rfl⟩) v.isLt
  rw [word, hload]
  exact BitVec.ofNat_toNat ..

theorem word_storeWords_of_not_mem (hn : n ∉ l.map Prod.fst) :
    word (storeWords mem page l) page n = word mem page n := by
  rw [word, word, storeWords, load64_storeAll_of_apart]
  intro q hq
  obtain ⟨p, hp, rfl⟩ := List.mem_map.mp hq
  have hne : n ≠ p.1 := fun heq => hn (heq ▸ List.mem_map_of_mem hp)
  omega

end

section
variable {view : Word → ℕ → ℕ} {page : ℕ} {st st' : State}

/-- A value of `satp` under which `TRAP_CONTEXT` is mapped to a page. -/
def MapsContext (view : Word → ℕ → ℕ) (satp : Word) (page : ℕ) : Prop :=
  ∀ n < 39, view satp (trapContext + n * 8) = page + n * 8

theorem context_address {n : ℕ} (hn : n < 39) :
    (BitVec.ofNat 64 trapContext + wordOffset n).toNat = trapContext + n * 8 := by
  have htop : trapContext + 8192 = 2 ^ 64 := rfl
  rw [wordOffset, BitVec.toNat_add, BitVec.toNat_ofNat, BitVec.toNat_ofNat]
  omega

/-- The words that `__saveall` stores. -/
def savedContext (u : State) : List (ℕ × Word) :=
  generalWords.map (fun n => (n, u.x (Fin.ofNat 32 n))) ++
    [(2, u.x sp), (statusWord, u.csr .sstatus), (epcWord, u.csr .sepc),
      (tvalWord, u.csr .stval), (causeWord, u.csr .scause)]

theorem savedContext_words (u : State) : (savedContext u).map Prod.fst =
    generalWords ++ [2, statusWord, epcWord, tvalWord, causeWord] := by
  simp [savedContext, Function.comp_def]

/-- What `__saveall` does. -/
structure Saved (page : ℕ) (u st : State) : Prop where
  mem : st.mem = storeWords u.mem page (savedContext u)
  mode : st.mode = u.mode
  pc : st.pc = word u.mem page trapHandleWord
  sp : st.x sp = word u.mem page kernelSpWord
  tp : st.x tp = u.x tp
  satp : st.csr .satp = word u.mem page kernelSatpWord

theorem generalSlots_ne {slot : Reg × Word} (h : slot ∈ generalSlots) :
    slot.1 ≠ 0 ∧ slot.1 ≠ sp ∧ slot.1 ≠ tp := by
  have hall : (generalSlots.all fun slot => slot.1 ≠ 0 ∧ slot.1 ≠ sp ∧ slot.1 ≠ tp) = true := by
    decide
  exact of_decide_eq_true (List.all_eq_true.mp hall slot h)

theorem run_saveall (hmap : MapsContext view (st.csr .satp) page)
    (hscratch : st.csr .sscratch = BitVec.ofNat 64 trapContext) :
    Saved page st (run view saveallCode st) := by
  obtain ⟨st₁, hst₁⟩ : ∃ st₁ : State,
    (st.write sp (st.csr .sscratch)).writeCsr .sscratch (st.read sp) = st₁ := ⟨_, rfl⟩
  have hexec : exec view st (.csrrw sp .sscratch sp) = st₁ := hst₁
  have hsp : st₁.x sp = BitVec.ofNat 64 trapContext := by
    rw [← hst₁, State.writeCsr, State.x_write_self (by decide)]
    exact hscratch
  have hx : ∀ r, r ≠ sp → st₁.x r = st.x r := by
    intro r hr
    rw [← hst₁]
    exact State.x_write_of_ne hr
  have hcsr : ∀ c, c ≠ .sscratch → st₁.csr c = st.csr c := by
    intro c hc
    rw [← hst₁, State.writeCsr, State.write_csr]
    exact Function.update_of_ne hc ..
  have hscratch₁ : st₁.csr .sscratch = st.x sp := by
    rw [← hst₁, ← State.read_of_ne (r := sp) (by decide)]
    simp only [State.writeCsr, Function.update_self]
  have hmem : st₁.mem = st.mem := by
    rw [← hst₁]
    exact State.write_mem
  have haddr : ∀ n < 39, view (st₁.csr .satp) (st₁.x sp + wordOffset n).toNat = page + n * 8 := by
    intro n hn
    rw [hcsr .satp (by decide), hsp, context_address hn]
    exact hmap n hn
  rw [saveallCode, run_cons, hexec, run_append, run_saves]
  obtain ⟨mem₂, hmem₂⟩ : ∃ mem₂, storeAll st₁.mem (generalSlots.map fun slot =>
    (st₁.address view slot.2 sp, (st₁.read slot.1).toNat)) = mem₂ := ⟨_, rfl⟩
  rw [hmem₂]
  have htail : TailSaved page { st₁ with mem := mem₂ }
      (run view saveallTail { st₁ with mem := mem₂ }) := run_saveallTail haddr
  have hsaved : mem₂ = storeWords st.mem page
      (generalWords.map fun n => (n, st.x (Fin.ofNat 32 n))) := by
    rw [← hmem₂, hmem, storeWords, generalSlots, List.map_map, List.map_map]
    congr 1
    apply List.map_congr_left
    intro n hn
    have hlt : n < 39 := by
      have hall : ∀ n ∈ generalWords, n < 39 := by decide
      exact hall n hn
    obtain ⟨hzero, hnsp, -⟩ := generalSlots_ne (List.mem_map_of_mem hn)
    simp only [Function.comp_apply, State.address]
    rw [State.read_of_ne (r := sp) (by decide), State.read_of_ne hzero, haddr n hlt, hx _ hnsp]
  have hfinal : (run view saveallTail { st₁ with mem := mem₂ }).mem =
      storeWords st.mem page (savedContext st) := by
    rw [htail.mem, hscratch₁, hcsr .sstatus (by decide), hcsr .sepc (by decide),
      hcsr .stval (by decide), hcsr .scause (by decide), hsaved, storeWords, storeWords,
      savedContext, List.map_append, storeAll_append]
  have hkept : ∀ n, n ∉ generalWords ++ [2, statusWord, epcWord, tvalWord, causeWord] →
      word (run view saveallTail { st₁ with mem := mem₂ }).mem page n = word st.mem page n := by
    intro n hn
    rw [hfinal, word_storeWords_of_not_mem]
    rw [savedContext_words]
    exact hn
  constructor
  · exact hfinal
  · rw [htail.mode, ← hst₁]
    exact State.write_mode
  · rw [htail.pc]
    exact hkept _ (by decide)
  · rw [htail.sp]
    exact hkept _ (by decide)
  · rw [htail.tp]
    exact hx tp (by decide)
  · rw [htail.satp]
    exact hkept _ (by decide)

/-- What `__restore` does. -/
structure Restored (page : ℕ) (st u : State) : Prop where
  mem : u.mem = st.mem
  x : ∀ r, r ≠ 0 → r ≠ tp → u.x r = word st.mem page r
  tp : u.x tp = st.x tp
  pc : u.pc = word st.mem page epcWord
  sepc : u.csr .sepc = word st.mem page epcWord
  sstatus : u.csr .sstatus = sretStatus (word st.mem page statusWord)

theorem run_restore (hmap : MapsContext view (st.x a1) page)
    (ha0 : st.x a0 = BitVec.ofNat 64 trapContext) :
    Restored page st (run view restoreCode st) := by
  have haddr : ∀ n < 39, view (st.x a1) (st.x a0 + wordOffset n).toNat = page + n * 8 := by
    intro n hn
    rw [ha0, context_address hn]
    exact hmap n hn
  have hhead := run_restoreHead haddr
  rw [restoreCode, run_append]
  obtain ⟨st₁, hst₁⟩ : ∃ st₁, run view restoreHead st = st₁ := ⟨_, rfl⟩
  rw [hst₁] at hhead ⊢
  have haddr₁ : ∀ n < 39, st₁.address view (wordOffset n) sp = page + n * 8 := by
    intro n hn
    rw [State.address, State.read_of_ne (by decide), hhead.satp, hhead.sp]
    exact haddr n hn
  have hloads : Riscv.Loaded view sp generalSlots st₁ (run view (loads sp generalSlots) st₁) :=
    run_loads (by decide) (by decide) (by decide)
  rw [run_append]
  obtain ⟨st₂, hst₂⟩ : ∃ st₂, run view (loads sp generalSlots) st₁ = st₂ := ⟨_, rfl⟩
  rw [hst₂] at hloads ⊢
  have haddr₂ : st₂.address view (wordOffset 2) sp = page + 2 * 8 := by
    rw [← haddr₁ 2 (by decide), State.address, State.address, State.read_of_ne (by decide),
      State.read_of_ne (by decide), hloads.csr, hloads.other sp (by decide)]
  have hsp : exec view st₂ (load sp 2) = st₂.write sp (word st.mem page 2) := by
    rw [load, exec, haddr₂, hloads.mem, hhead.mem, word]
  have hword : ∀ n ∈ generalWords, st₂.x (Fin.ofNat 32 n) = word st.mem page n := by
    intro n hn
    have hlt : n < 39 := by
      have hall : ∀ n ∈ generalWords, n < 39 := by decide
      exact hall n hn
    rw [hloads.loaded (Fin.ofNat 32 n, wordOffset n) (List.mem_map_of_mem hn), haddr₁ n hlt,
      hhead.mem, word]
  obtain ⟨st₃, hst₃⟩ : ∃ st₃, st₂.write sp (word st.mem page 2) = st₃ := ⟨_, rfl⟩
  have hsp₃ : st₃.x sp = word st.mem page 2 := by
    rw [← hst₃, State.x_write_self (by decide)]
  have hx₃ : ∀ r, r ≠ sp → st₃.x r = st₂.x r := by
    intro r hr
    rw [← hst₃, State.x_write_of_ne hr]
  have hcsr₃ : st₃.csr = st₁.csr := by rw [← hst₃, State.write_csr, hloads.csr]
  rw [run_cons, hsp, hst₃, run_cons, run_nil]
  constructor
  · rw [exec_sret_mem, ← hst₃, State.write_mem, hloads.mem, hhead.mem]
  · intro r hzero htp
    rw [exec_sret_x]
    by_cases hr : r = sp
    · subst hr
      exact hsp₃
    · have hall : ∀ r : Reg, r ≠ 0 → r ≠ tp → r ≠ sp →
          r.val ∈ generalWords ∧ Fin.ofNat 32 r.val = r := by decide
      obtain ⟨hn, hofNat⟩ := hall r hzero htp hr
      have hrx := hword r hn
      rw [hofNat] at hrx
      rw [hx₃ r hr, hrx]
  · rw [exec_sret_x, hx₃ tp (by decide), hloads.other tp (by decide), hhead.tp]
  · rw [exec_sret_pc, hcsr₃, hhead.sepc]
  · rw [exec_sret_csr (by decide), hcsr₃, hhead.sepc]
  · rw [exec_sret_sstatus, hcsr₃, hhead.sstatus]

end

/-! ## From user mode and back -/

section
variable {view : Word → ℕ → ℕ} {page page' : ℕ} {u last back : State}
  {stvec cause tval : Word} {c : ℕ → Word}

/-- A user program is about to trap. It was entered by `sret`, `sscratch` has the address of
its context, and of that context the words that `__saveall` does not store are those of
`app_context_init`. -/
structure AtTrap (view : Word → ℕ → ℕ) (u : State) (page : ℕ) (c : ℕ → Word) : Prop where
  mode : u.mode = .user
  returned : ∃ v, u.csr .sstatus = sretStatus v
  sscratch : u.csr .sscratch = BitVec.ofNat 64 trapContext
  context : MapsContext view (u.csr .satp) page
  prepared : ∀ n ∈ [tp.val, kernelSatpWord, kernelSpWord, trapHandleWord],
    word u.mem page n = c n

/-- The state in which a handler is entered. -/
def handlerState (view : Word → ℕ → ℕ) (u : State) (stvec cause tval : Word) : State :=
  run view saveallCode (takeTrap u stvec cause tval)

/-- `e_return` is about to jump to `__restore`. The kernel never writes `tp`, so it is that
of the program that trapped last on this hart. Of the words of the context only `gr.tp` is
sure to be as `app_context_init` left it. -/
structure AtReturn (view : Word → ℕ → ℕ) (last back : State) (page : ℕ) (c : ℕ → Word) :
    Prop where
  x10 : back.x a0 = BitVec.ofNat 64 trapContext
  context : MapsContext view (back.x a1) page
  x4 : back.x tp = last.x tp
  gr_tp : word back.mem page tp = c tp

/-- `cpuid`, the value of `r_tp`. -/
def cpuid (h : Hart) : ℕ := (h.x tp).toNat

/-- What a register should hold after the return whose value at the trap was `v`: that
value, or what the handler put in its place in the context. -/
def expected (before after : Memory) (page page' n : ℕ) (v : Word) : Word :=
  if word after page' n = word before page n then v else word after page' n

/-- The handler of a trap on hart `h` knows its hart, and the user program finds its
registers as they were, but for what the handler changed. -/
structure Transparent (view : Word → ℕ → ℕ) (h : ℕ) (u entered back : State) (page page' : ℕ) :
    Prop where
  cpuid : cpuid entered.toHart = h
  x : ∀ r, r ≠ 0 → (run view restoreCode back).x r =
    expected entered.mem back.mem page page' r (u.x r)
  pc : (run view restoreCode back).pc = expected entered.mem back.mem page page' epcWord u.pc
  sepc : (run view restoreCode back).csr .sepc =
    expected entered.mem back.mem page page' epcWord u.pc
  sstatus : (run view restoreCode back).csr .sstatus =
    if word back.mem page' statusWord = word entered.mem page statusWord then u.csr .sstatus
    else sretStatus (word back.mem page' statusWord)

theorem AtTrap.saved (hu : AtTrap view u page c) :
    Saved page (takeTrap u stvec cause tval) (handlerState view u stvec cause tval) :=
  run_saveall hu.context hu.sscratch

/-- The handler is entered at `trap_handle` on the kernel stack and the kernel's table. -/
theorem AtTrap.entered {sstatus entry uSp kSatp kSp trapHandle : Word}
    (hu : AtTrap view u page (appContextInit sstatus entry uSp kSatp kSp trapHandle)) :
    (handlerState view u stvec cause tval).pc = trapHandle ∧
      (handlerState view u stvec cause tval).x sp = kSp ∧
      (handlerState view u stvec cause tval).csr .satp = kSatp := by
  have hs : Saved page (takeTrap u stvec cause tval) _ := hu.saved
  refine ⟨?_, ?_, ?_⟩
  · exact hs.pc.trans (hu.prepared trapHandleWord (by decide))
  · exact hs.sp.trans (hu.prepared kernelSpWord (by decide))
  · exact hs.satp.trans (hu.prepared kernelSatpWord (by decide))

theorem AtTrap.savedWord (hu : AtTrap view u page c) {n : ℕ} {v : Word}
    (hmem : (n, v) ∈ savedContext (takeTrap u stvec cause tval)) :
    word (handlerState view u stvec cause tval).mem page n = v := by
  rw [hu.saved.mem]
  apply word_storeWords _ hmem
  rw [savedContext_words]
  decide

theorem AtTrap.savedReg (hu : AtTrap view u page c) {r : Reg} (hzero : r ≠ 0) (htp : r ≠ tp) :
    word (handlerState view u stvec cause tval).mem page r = u.x r := by
  apply hu.savedWord
  by_cases hr : r = sp
  · subst hr
    exact List.mem_append_right _ List.mem_cons_self
  · have hall : ∀ r : Reg, r ≠ 0 → r ≠ tp → r ≠ sp →
        r.val ∈ generalWords ∧ Fin.ofNat 32 r.val = r := by decide
    obtain ⟨hn, hofNat⟩ := hall r hzero htp hr
    apply List.mem_append_left
    rw [List.mem_map]
    refine ⟨r.val, hn, ?_⟩
    rw [hofNat]
    rfl

theorem AtTrap.gr_tp (hu : AtTrap view u page c) :
    word (handlerState view u stvec cause tval).mem page tp = c tp := by
  rw [hu.saved.mem, word_storeWords_of_not_mem]
  · exact hu.prepared tp (by decide)
  · rw [savedContext_words]
    decide

/-- The handler knows its hart and the return restores every register if and only if `x4`
had the number of the hart at the trap, and so it is for the program that trapped last on
the hart that returns. -/
theorem trap_transparent_iff (h : ℕ) (hu : AtTrap view u page c)
    (hback : AtReturn view last back page' c) :
    Transparent view h u (handlerState view u stvec cause tval) back page page' ↔
      (u.x tp).toNat = h ∧ last.x tp = u.x tp := by
  have hrest : Restored page' back (run view restoreCode back) :=
    run_restore hback.context hback.x10
  have htp : (handlerState view u stvec cause tval).x tp = u.x tp := hu.saved.tp
  have hgr : expected (handlerState view u stvec cause tval).mem back.mem page page' tp (u.x tp) =
      u.x tp := by
    rw [expected, if_pos (hback.gr_tp.trans hu.gr_tp.symm)]
  have hepc : word (handlerState view u stvec cause tval).mem page epcWord = u.pc := by
    apply hu.savedWord
    simp [savedContext, takeTrap, State.writeCsr]
  have hword : expected (handlerState view u stvec cause tval).mem back.mem page page' epcWord
      u.pc = word back.mem page' epcWord := by
    unfold expected
    split
    · rename_i heq
      rw [heq, hepc]
    · rfl
  constructor
  · intro ht
    constructor
    · rw [← htp]
      exact ht.cpuid
    · rw [← hback.x4, ← hrest.tp, ht.x tp (by decide)]
      exact hgr
  · rintro ⟨hh, hlast⟩
    constructor
    · rw [cpuid, htp]
      exact hh
    · intro r hzero
      by_cases hr : r = tp
      · subst hr
        rw [hrest.tp, hback.x4, hgr]
        exact hlast
      · rw [hrest.x r hzero hr, expected]
        split
        · rename_i heq
          rw [heq, hu.savedReg hzero hr]
        · rfl
    · rw [hrest.pc, hword]
    · rw [hrest.sepc, hword]
    · rw [hrest.sstatus]
      split
      · rename_i heq
        obtain ⟨v, hv⟩ := hu.returned
        have hstatus : word (handlerState view u stvec cause tval).mem page statusWord =
            trapStatus (u.csr .sstatus) := by
          apply hu.savedWord
          simp [savedContext, takeTrap, State.writeCsr]
        rw [heq, hstatus, hv]
        exact sretStatus_trapStatus v
      · rfl

end

/-! ## A program with a `tp` of its own -/

/-- `TRAP_CONTEXT` is mapped to the page at `0x80600000`. -/
def contextView : Word → ℕ → ℕ := fun _ a => a - trapContext + 0x80600000

def programContext : ℕ → Word := appContextInit 0 0x1000 0x8000 0x80000 0x90000 0x80020000

/-- A program at address `0x1000` with `x4` in `tp`. -/
def program (x4 : Word) : State where
  mode := .user
  pc := 0x1000
  x r := if r = tp then x4 else 7
  csr r := match r with
    | .sstatus => sretStatus 0
    | .sscratch => BitVec.ofNat 64 trapContext
    | _ => 0
  mem := storeWords (fun _ => 0) 0x80600000
    [(kernelSatpWord, 0x80000), (kernelSpWord, 0x90000), (trapHandleWord, 0x80020000)]

/-- The program's timer interrupt, and the return from a handler that changed nothing. -/
def timerHandler (x4 : Word) : State :=
  handlerState contextView (program x4) (BitVec.ofNat 64 trampoline) 0x8000000000000005 0

def timerReturn (x4 : Word) : State where
  mode := .supervisor
  pc := 0x80030000
  x r := if r = a0 then BitVec.ofNat 64 trapContext else if r = tp then x4 else 0
  csr _ := 0
  mem := (timerHandler x4).mem

theorem contextView_maps (satp : Word) : MapsContext contextView satp 0x80600000 := by
  intro n hn
  rw [contextView]
  omega

theorem program_atTrap (x4 : Word) : AtTrap contextView (program x4) 0x80600000 programContext := by
  constructor
  · rfl
  · exact ⟨0, rfl⟩
  · rfl
  · exact contextView_maps _
  · intro n hn
    simp only [List.mem_cons, List.not_mem_nil, or_false] at hn
    rcases hn with rfl | rfl | rfl | rfl
    · exact (word_storeWords_of_not_mem (by decide)).trans (by decide)
    · exact word_storeWords (by decide) (by decide)
    · exact word_storeWords (by decide) (by decide)
    · exact word_storeWords (by decide) (by decide)

theorem timerReturn_atReturn (x4 : Word) :
    AtReturn contextView (program x4) (timerReturn x4) 0x80600000 programContext := by
  constructor
  · rfl
  · exact contextView_maps _
  · rfl
  · have hmem : (timerReturn x4).mem = (timerHandler x4).mem := by rw [timerReturn]
    have hgr : word (timerHandler x4).mem 0x80600000 tp = programContext tp := by
      rw [timerHandler, (program_atTrap x4).gr_tp]
    rw [hmem, hgr]

theorem zero_tp_transparent :
    Transparent contextView 0 (program 0) (timerHandler 0) (timerReturn 0) 0x80600000
      0x80600000 := by
  have htp : (program 0).x tp = 0 := by simp [program]
  apply (trap_transparent_iff 0 (program_atTrap 0) (timerReturn_atReturn 0)).mpr
  rw [htp]
  exact ⟨rfl, rfl⟩

/-- On any hart the handler of a program with `5` in `x4` takes itself for hart 5. -/
theorem foreign_tp_not_transparent :
    AtTrap contextView (program 5) 0x80600000 programContext ∧
      AtReturn contextView (program 5) (timerReturn 5) 0x80600000 programContext ∧
      cpuid (timerHandler 5).toHart = 5 ∧
      ∀ h < 2, ¬ Transparent contextView h (program 5) (timerHandler 5) (timerReturn 5)
        0x80600000 0x80600000 := by
  have htp : (timerHandler 5).x tp = 5 := (program_atTrap 5).saved.tp
  have hid : cpuid (timerHandler 5).toHart = 5 := by
    rw [cpuid, htp]
    rfl
  refine ⟨program_atTrap 5, timerReturn_atReturn 5, hid, ?_⟩
  intro h hlt ht
  have hh := ht.cpuid
  omega

end K210Os
