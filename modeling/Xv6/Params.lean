import Mathlib

/-!
# Constants and page arithmetic

The sizes of `param.h`, the layout of `memlayout.h` and the macros of
`riscv.h`. Addresses are natural numbers; a 64-bit sum that can wrap is
written with an explicit `% 2 ^ 64`.
-/

namespace Xv6

abbrev PGSIZE : Nat := 4096
abbrev NPROC : Nat := 64
abbrev NOFILE : Nat := 16
abbrev MAXARG : Nat := 32
abbrev USERSTACK : Nat := 1
abbrev MAXVMA : Nat := 16

abbrev KERNBASE : Nat := 0x80000000
abbrev PHYSTOP : Nat := KERNBASE + 128 * 1024 * 1024

abbrev MAXVA : Nat := 2 ^ (9 + 9 + 9 + 12 - 1)
abbrev TRAMPOLINE : Nat := MAXVA - PGSIZE
abbrev TRAPFRAME (p : Nat) : Nat := TRAMPOLINE - (p + 1) * PGSIZE

/-- Pages of user memory: those below `TRAPFRAME(NPROC)`. -/
abbrev NUPAGE : Nat := TRAPFRAME NPROC / PGSIZE

/-- What the linker decides: where the kernel image ends and where its
trampoline page lies. -/
class Image where
  kend : Nat
  trampoline : Nat
  kend_le : kend ≤ PHYSTOP
  tramp_aligned : trampoline % PGSIZE = 0
  tramp_ge : KERNBASE ≤ trampoline
  tramp_lt : trampoline + PGSIZE ≤ kend

@[reducible] def lastPages (n : Fin 32000) : Image where
  kend := PHYSTOP - n * PGSIZE
  trampoline := KERNBASE
  kend_le := Nat.sub_le ..
  tramp_aligned := by decide
  tramp_ge := Nat.le_refl _
  tramp_lt := by have := n.isLt; lia

def PGROUNDUP (sz : Nat) : Nat := (sz + PGSIZE - 1) % 2 ^ 64 / PGSIZE * PGSIZE

def PGROUNDDOWN (a : Nat) : Nat := a / PGSIZE * PGSIZE

/-- Number of rounds of `for(a = lo; a < hi; a += PGSIZE)`. -/
def rounds (lo hi : Nat) : Nat := (hi - lo + PGSIZE - 1) / PGSIZE

theorem PGROUNDUP_mod (a : Nat) : PGROUNDUP a % PGSIZE = 0 := by
  unfold PGROUNDUP; lia

theorem PGROUNDUP_ge (h : a ≤ TRAPFRAME NPROC) : a ≤ PGROUNDUP a := by
  unfold PGROUNDUP; lia

theorem PGROUNDUP_lt (_ : a ≤ TRAPFRAME NPROC) : PGROUNDUP a < a + PGSIZE := by
  unfold PGROUNDUP; lia

theorem PGROUNDUP_le (h : a ≤ TRAPFRAME NPROC) : PGROUNDUP a ≤ TRAPFRAME NPROC := by
  unfold PGROUNDUP; lia

end Xv6
