import Mathlib.Data.Nat.Bitwise
import Mathlib.Data.Fin.Basic
import Mathlib.Tactic.NormNum

/-!
# Address-space layout and page arithmetic

The constants of `inc/memlayout.h`, `inc/mmu.h`, `kernel/task.h` and
`kernel/cpu.h`, and the macros that take an address or a page-table entry apart.

Addresses and entries are natural numbers; the operations that can leave 32 bits
(`add32`, `roundup`) reduce modulo `2 ^ 32` where the C code does.  Each macro is
written with the shifts and masks of the header and comes with one lemma that
restates it with `/` and `%`, the form every later proof uses.

`pteWord pa perm` is the word `pa | perm | PTE_P` that `boot_map_region` and
`page_insert` store.  `ptePage_pteWord` and `pteWord_mod` say that, for a
page-aligned `pa` and a `perm` below `PGSIZE`, the two halves do not run into
each other.
-/

namespace Nctuos

/-! ## `inc/mmu.h` -/

def pgSize : Nat := 4096
def npdentries : Nat := 1024
def nptentries : Nat := 1024
def ptSize : Nat := pgSize * nptentries
def pgShift : Nat := 12
def ptxShift : Nat := 12
def pdxShift : Nat := 22

def pteP : Nat := 0x001
def pteW : Nat := 0x002
def pteU : Nat := 0x004
def ptePwt : Nat := 0x008
def ptePcd : Nat := 0x010

/-! ## `inc/memlayout.h` -/

def kernbase : Nat := 0xF0000000
def iophysmem : Nat := 0x0A0000
def extphysmem : Nat := 0x100000
def kstacktop : Nat := kernbase
def kstksize : Nat := 8 * pgSize
def kstkgap : Nat := 8 * pgSize
def mmiolim : Nat := kstacktop - ptSize
def mmiobase : Nat := mmiolim - ptSize
def ulim : Nat := mmiobase
def uvpt : Nat := ulim - ptSize
def upages : Nat := uvpt - ptSize
def uenvs : Nat := upages - ptSize
def utop : Nat := uenvs
def ustacktop : Nat := utop - 2 * pgSize
def mpentryPaddr : Nat := 0x7000

theorem mmiolim_eq : mmiolim = 0xEFC00000 := by decide
theorem mmiobase_eq : mmiobase = 0xEF800000 := by decide
theorem uvpt_eq : uvpt = 0xEF400000 := by decide
theorem upages_eq : upages = 0xEF000000 := by decide
theorem ustacktop_eq : ustacktop = 0xEEBFE000 := by decide

/-! ## `kernel/task.h` and `kernel/cpu.h` -/

def nrTasks : Nat := 32
def timeQuant : Int := 100
def usrStackSize : Nat := 40960
/-- `NCPU`, the most CPUs the kernel keeps a record for. -/
def ncpuMax : Nat := 8

/-- The addresses `va - PGSIZE` that the user-stack loops of `task_create`,
`task_free` and `sys_fork` visit, in the order they visit them. -/
def stackVas : List Nat :=
  (List.range (usrStackSize / pgSize)).map fun k => ustacktop - k * pgSize - pgSize

/-! ## 32-bit arithmetic -/

/-- Addition of two `uint32_t`. -/
def add32 (a b : Nat) : Nat := (a + b) % 2 ^ 32

def rounddown (a n : Nat) : Nat := a - a % n

/-- `ROUNDUP(a, n)`: the sum `a + n - 1` is a `uint32_t`. -/
def roundup (a n : Nat) : Nat := rounddown ((a + n - 1) % 2 ^ 32) n

theorem roundup_mod (a : Nat) : roundup a pgSize % pgSize = 0 := by
  simp only [roundup, rounddown, pgSize]
  omega

theorem le_roundup {a : Nat} (h : a + pgSize ≤ 2 ^ 32) : a ≤ roundup a pgSize := by
  simp only [roundup, rounddown, pgSize] at *
  omega

theorem roundup_lt {a : Nat} (h : a + pgSize ≤ 2 ^ 32) :
    roundup a pgSize < a + pgSize := by
  simp only [roundup, rounddown, pgSize] at *
  omega

/-! ## Taking an address apart -/

/-- An index into a page directory or a page table. -/
abbrev Idx := Fin 1024

def pgnum (la : Nat) : Nat := la >>> ptxShift

def pdx (la : Nat) : Idx :=
  ⟨(la >>> pdxShift) &&& 0x3FF, Nat.lt_of_le_of_lt Nat.and_le_right (by decide)⟩

def ptx (la : Nat) : Idx :=
  ⟨(la >>> ptxShift) &&& 0x3FF, Nat.lt_of_le_of_lt Nat.and_le_right (by decide)⟩

theorem pgnum_eq (la : Nat) : pgnum la = la / 4096 := by
  simp [pgnum, ptxShift, Nat.shiftRight_eq_div_pow]

theorem pdx_val (la : Nat) : (pdx la : Nat) = la / 4194304 % 1024 := by
  have h := Nat.and_two_pow_sub_one_eq_mod (la >>> 22) 10
  simpa [pdx, pdxShift, Nat.shiftRight_eq_div_pow] using h

theorem ptx_val (la : Nat) : (ptx la : Nat) = la / 4096 % 1024 := by
  have h := Nat.and_two_pow_sub_one_eq_mod (la >>> 12) 10
  simpa [ptx, ptxShift, Nat.shiftRight_eq_div_pow] using h

/-- Two 32-bit addresses share both indices exactly when they share the page. -/
theorem pdx_ptx_inj {a b : Nat} (ha : a < 2 ^ 32) (hb : b < 2 ^ 32) :
    pdx a = pdx b ∧ ptx a = ptx b ↔ pgnum a = pgnum b := by
  simp only [Fin.ext_iff, pdx_val, ptx_val, pgnum_eq]
  omega

/-! ## Page-table entries -/

/-- The address half of an entry, `(physaddr_t) (pte) & ~0xFFF`. -/
def pteAddr (e : Nat) : Nat := e &&& 0xFFFFF000

/-- The physical page an entry names. -/
def ptePage (e : Nat) : Nat := pgnum (pteAddr e)

/-- `e & PTE_P`. -/
def present (e : Nat) : Bool := e &&& pteP != 0

/-- The physical address of page `pp`, `page2pa`. -/
def page2pa (pp : Nat) : Nat := pp <<< pgShift

/-- The word `pa | perm | PTE_P`. -/
def pteWord (pa perm : Nat) : Nat := pa ||| perm ||| pteP

theorem pteAddr_eq (e : Nat) : pteAddr e = e / 4096 % 1048576 * 4096 := by
  have hmask : (0xFFFFF000 : Nat) = (2 ^ 20 - 1) <<< 12 := by decide
  have h : pteAddr e = ((e >>> 12) &&& (2 ^ 20 - 1)) <<< 12 := by
    apply Nat.eq_of_testBit_eq
    intro i
    rw [pteAddr, hmask]
    simp only [Nat.testBit_and, Nat.testBit_shiftLeft, Nat.testBit_shiftRight]
    by_cases hi : 12 ≤ i
    · simp [hi]
    · simp [hi]
  rw [h, Nat.and_two_pow_sub_one_eq_mod, Nat.shiftLeft_eq, Nat.shiftRight_eq_div_pow]

theorem ptePage_eq (e : Nat) : ptePage e = e / 4096 % 1048576 := by
  rw [ptePage, pgnum_eq, pteAddr_eq]
  omega

theorem page2pa_eq (pp : Nat) : page2pa pp = pp * 4096 := by
  simp [page2pa, pgShift, Nat.shiftLeft_eq]

theorem pteAddr_eq_page2pa (e : Nat) : pteAddr e = page2pa (ptePage e) := by
  rw [pteAddr_eq, page2pa_eq, ptePage_eq]

theorem present_iff (e : Nat) : present e = true ↔ e % 2 = 1 := by
  simp [present, pteP, Nat.and_one_is_mod]

@[simp] theorem present_pteWord (pa perm : Nat) : present (pteWord pa perm) = true := by
  have h : (pteWord pa perm).testBit 0 = true := by
    simp [pteWord, pteP]
  rw [Nat.testBit_zero, decide_eq_true_iff] at h
  exact (present_iff _).mpr h

@[simp] theorem present_zero : present 0 = false := rfl

theorem perm_lor_lt {perm : Nat} (h : perm < 4096) : perm ||| pteP < 4096 :=
  Nat.or_lt_two_pow (n := 12) h (by decide)

/-- The two halves of an entry do not overlap. -/
theorem pteWord_eq {perm : Nat} (pp : Nat) (h : perm < 4096) :
    pteWord (page2pa pp) perm = pp * 4096 + (perm ||| pteP) := by
  rw [pteWord, Nat.or_assoc, page2pa_eq, Nat.mul_comm]
  exact (Nat.two_pow_add_eq_or_of_lt (i := 12) (perm_lor_lt h) pp).symm

@[simp] theorem ptePage_pteWord {pp perm : Nat} (hp : pp < 2 ^ 20) (h : perm < 4096) :
    ptePage (pteWord (page2pa pp) perm) = pp := by
  have := perm_lor_lt h
  rw [ptePage_eq, pteWord_eq pp h]
  omega

theorem pteWord_mod {pp perm : Nat} (h : perm < 4096) :
    pteWord (page2pa pp) perm % 4096 = perm ||| pteP := by
  have := perm_lor_lt h
  rw [pteWord_eq pp h]
  omega

end Nctuos
