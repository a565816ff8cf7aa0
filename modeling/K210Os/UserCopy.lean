import K210Os.PageTable

/-!
# Copies between the kernel and user space

`va2pa` and the three copy functions of the system calls, page by page as the
source has them. A result is the value returned, `none` where `va2pa` stops the
system, together with what was copied until then: bytes delivered to the kernel, or
the memory as it is left. Kernel buffers are disjoint from the frames of user pages.
-/

namespace K210Os

def vmaStart : ℕ := 0x40000000
def trampoline : ℕ := 2 ^ 64 - pageSize
def trapContext : ℕ := trampoline - pageSize

/-- What a copy reads of the running task and of `KERNEL_SPACE`. -/
structure Mytask where
  isInitproc : Bool
  baseSize : ℕ
  rootPpn : ℕ
  kernelRootPpn : ℕ

/-- The root of the table that `va2pa` walks. -/
def Mytask.walkRoot (p : Mytask) : ℕ := if !p.isInitproc then p.rootPpn else p.kernelRootPpn

/-- The translation looks at no flag of the leaf. -/
def va2pa (p : Mytask) (mem : Memory) (va : ℕ) : Option ℕ :=
  let off := getOffset va
  let vpn := va2vpn va
  (findPte mem p.walkRoot vpn).map fun pte => ppn2pa (pteGetPpn (load64 mem pte)) ||| off

/-- How many bytes a copy of `len` bytes from `va` on takes on the first page. -/
def chunk (va len : ℕ) : ℕ :=
  let n := pageSize - (va - vpn2va (va2vpn va))
  if n > len then len else n

theorem vpn2va_va2vpn {va : ℕ} (h : va < 2 ^ 64) : vpn2va (va2vpn va) = va / 4096 * 4096 := by
  rw [vpn2va, ppn2pa_eq]
  · rfl
  · change va / 4096 < 2 ^ 52
    omega

theorem chunk_eq {va : ℕ} (h : va < 2 ^ 64) (len : ℕ) : chunk va len = min (4096 - va % 4096) len := by
  rw [chunk, vpn2va_va2vpn h, pageSize]
  split <;> omega

theorem chunk_pos {va len : ℕ} (h : va < 2 ^ 64) (hlen : len ≠ 0) : 0 < chunk va len := by
  rw [chunk_eq h]
  omega

/-- The loop of `copyin2`, with the translation as it is during the call. A round
copies at least one byte, so `len` rounds are enough. -/
def copyin2Loop (translate : ℕ → Option ℕ) (mem : Memory) : ℕ → ℕ → ℕ → Option ℤ × List Byte
  | 0, _, _ => (some 0, [])
  | fuel + 1, srcva, len =>
      if len = 0 then (some 0, [])
      else
        let va := vpn2va (va2vpn srcva)
        match translate va with
        | none => (none, [])
        | some pa =>
            let n := chunk srcva len
            let bytes := (List.range n).map fun k => mem (pa + (srcva - va) + k)
            let (code, rest) :=
              copyin2Loop translate mem fuel ((va + pageSize) % 2 ^ 64) (len - n)
            (code, bytes ++ rest)

def copyin2 (p : Mytask) (mem : Memory) (srcva len : ℕ) : Option ℤ × List Byte :=
  copyin2Loop (va2pa p mem) mem len srcva len

/-- The loop of `copyout2`; every page is translated in the memory as it is then. -/
def copyout2Loop (p : Mytask) :
    ℕ → Memory → ℕ → (ℕ → Byte) → ℕ → Option ℤ × Memory
  | 0, mem, _, _, _ => (some 0, mem)
  | fuel + 1, mem, dstva, src, len =>
      if len = 0 then (some 0, mem)
      else
        let va := vpn2va (va2vpn dstva)
        match va2pa p mem va with
        | none => (none, mem)
        | some pa =>
            let n := chunk dstva len
            let mem := copyBytes mem (pa + (dstva - va)) src n
            copyout2Loop p fuel mem ((va + pageSize) % 2 ^ 64) (fun k => src (n + k)) (len - n)

/-- The range test of `copyout2`. -/
def copyout2Refuses (p : Mytask) (dstva len : ℕ) : Bool :=
  ((dstva + len) % 2 ^ 64 > p.baseSize || dstva ≥ p.baseSize) && dstva < vmaStart

def copyout2 (p : Mytask) (mem : Memory) (dstva : ℕ) (src : ℕ → Byte) (len : ℕ) :
    Option ℤ × Memory :=
  if copyout2Refuses p dstva len then (some (-1), mem)
  else copyout2Loop p len mem dstva src len

/-- The inner loop of `copyinstr2`: at most `n` bytes from address `a` on, up to and
with the first zero byte. -/
def copyinstr2Page (mem : Memory) : ℕ → ℕ → Bool × List Byte
  | 0, _ => (false, [])
  | n + 1, a =>
      if mem a = 0 then (true, [0])
      else
        let (goNull, rest) := copyinstr2Page mem n (a + 1)
        (goNull, mem a :: rest)

def copyinstr2Loop (translate : ℕ → Option ℕ) (mem : Memory) : ℕ → ℕ → ℕ → Option ℤ × List Byte
  | 0, _, _ => (some (-1), [])
  | fuel + 1, srcva, max =>
      if max = 0 then (some (-1), [])
      else
        let va := vpn2va (va2vpn srcva)
        match translate va with
        | none => (none, [])
        | some pa =>
            let n := chunk srcva max
            let (goNull, bytes) := copyinstr2Page mem n (pa + (srcva - va))
            if goNull then (some 0, bytes)
            else
              let (code, rest) :=
                copyinstr2Loop translate mem fuel ((va + pageSize) % 2 ^ 64) (max - n)
              (code, bytes ++ rest)

/-- The range test of `copyinstr2`; `max < 0` is never true of an unsigned value. -/
def copyinstr2Refuses (p : Mytask) (srcva max : ℕ) : Bool :=
  (srcva + max) % 2 ^ 64 > p.baseSize || srcva ≥ p.baseSize || max < 0

def copyinstr2 (p : Mytask) (mem : Memory) (srcva max : ℕ) : Option ℤ × List Byte :=
  if copyinstr2Refuses p srcva max then (some (-1), [])
  else copyinstr2Loop (va2pa p mem) mem max srcva max

end K210Os
