import Mathlib.Algebra.Group.Nat.Hom

/-!
# Addresses and page numbers

The address arithmetic of the memory-management header, on 64-bit values given as
natural numbers below `2 ^ 64`.
-/

namespace K210Os

def pageSize : ℕ := 4096
def pageOffsetBits : ℕ := 12
def memoryEnd : ℕ := 0x80800000

/-- Offset of an address in its page. -/
def getOffset (a : ℕ) : ℕ := a &&& (pageSize - 1)

def paFloor (pa : ℕ) : ℕ := pa / pageSize
def paCeil (pa : ℕ) : ℕ := (pa + pageSize - 1) % 2 ^ 64 / pageSize
def vaFloor (va : ℕ) : ℕ := paFloor va
def vaCeil (va : ℕ) : ℕ := paCeil va
def pa2ppn (pa : ℕ) : ℕ := paFloor pa
def ppn2pa (ppn : ℕ) : ℕ := ppn <<< pageOffsetBits % 2 ^ 64
def va2vpn (va : ℕ) : ℕ := pa2ppn va
def vpn2va (vpn : ℕ) : ℕ := ppn2pa vpn

theorem getOffset_eq (a : ℕ) : getOffset a = a % 4096 := Nat.and_two_pow_sub_one_eq_mod a 12

theorem ppn2pa_eq {ppn : ℕ} (h : ppn < 2 ^ 52) : ppn2pa ppn = ppn * 4096 := by
  rw [ppn2pa, pageOffsetBits, Nat.shiftLeft_eq]
  omega

end K210Os
