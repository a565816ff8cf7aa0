import K210Os.LittleEndian
import Mathlib.Logic.Nontrivial.Basic

/-!
# Physical memory

Memory is a function from physical addresses to bytes. The kernel maps it
identically, so a pointer of the kernel is a physical address.
-/

namespace K210Os

abbrev Byte := BitVec 8

instance : Nontrivial Byte := ⟨0, 1, by decide⟩

abbrev Memory := ℕ → Byte

def memset (mem : Memory) (dest : ℕ) (c : Byte) (n : ℕ) : Memory :=
  fun a => if dest ≤ a ∧ a < dest + n then c else mem a

/-- `memmove` between buffers that do not overlap. -/
def copyBytes (mem : Memory) (dest : ℕ) (src : ℕ → Byte) (n : ℕ) : Memory :=
  fun a => if dest ≤ a ∧ a < dest + n then src (a - dest) else mem a

/-- The 64-bit value at an address. -/
def load64 (mem : Memory) (a : ℕ) : ℕ := LittleEndian.load mem a 8

def store64 (mem : Memory) (a value : ℕ) : Memory := LittleEndian.store mem a 8 value

def load32 (mem : Memory) (a : ℕ) : ℕ := LittleEndian.load mem a 4

def store32 (mem : Memory) (a value : ℕ) : Memory := LittleEndian.store mem a 4 value

theorem memset_outside {mem : Memory} {dest n a : ℕ} {c : Byte} (h : a < dest ∨ dest + n ≤ a) :
    memset mem dest c n a = mem a := by
  rw [memset, if_neg (by omega)]

theorem memset_inside {mem : Memory} {dest n a : ℕ} {c : Byte} (hlo : dest ≤ a)
    (hhi : a < dest + n) : memset mem dest c n a = c := by
  rw [memset, if_pos ⟨hlo, hhi⟩]

theorem copyBytes_inside {mem : Memory} {dest n a : ℕ} {src : ℕ → Byte} (hlo : dest ≤ a)
    (hhi : a < dest + n) : copyBytes mem dest src n a = src (a - dest) := by
  rw [copyBytes, if_pos ⟨hlo, hhi⟩]

theorem copyBytes_outside {mem : Memory} {dest n a : ℕ} {src : ℕ → Byte}
    (h : a < dest ∨ dest + n ≤ a) : copyBytes mem dest src n a = mem a := by
  rw [copyBytes, if_neg (by omega)]

theorem copyBytes_zero (mem : Memory) (dest : ℕ) (src : ℕ → Byte) :
    copyBytes mem dest src 0 = mem :=
  funext fun a => copyBytes_outside (Nat.lt_or_ge a dest)

end K210Os
