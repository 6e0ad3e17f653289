import Mathlib.Data.Nat.Bitwise
import Xv6Sched.Lib.Mem

/-!
# Xv6Sched.Vm.Pagetable — Sv39 page tables in physical memory: `kalloc`, `walk`, `walkaddr`

Physical memory is byte addressed (`Phys.mem`); a page-table page is 512 PTEs of 8 bytes each,
little-endian, in that memory, so a store to physical memory can change a translation.  The
allocator's free list `kmem.freelist` is kept as the list of pages its `struct run` links thread;
`kfree` still writes the junk and the link into the page, and `kalloc` its junk.

`walk` descends from the root at level 2 to the level-0 PTE of `va`, allocating missing tables
when asked (`walkFrom`); without allocation it changes nothing (`walkFrom_false`).  `walkaddr`
returns the physical page of a valid user leaf, and `0` for everything else, the leaf at physical
page `0` included (`walkaddr_ne_zero_iff`).  Its result depends only on the PTEs it reads
(`walkaddrReads`, `walkaddr_congr`).
-/

namespace Xv6Sched.Vm

/-! ### `riscv.h` and `memlayout.h` -/

def PGSIZE : UInt64 := 4096
def PGSHIFT : UInt64 := 12

def PGROUNDUP (sz : UInt64) : UInt64 := (sz + PGSIZE - 1) &&& ~~~(PGSIZE - 1)
def PGROUNDDOWN (a : UInt64) : UInt64 := a &&& ~~~(PGSIZE - 1)

def PTE_V : UInt64 := (1 : UInt64) <<< 0
def PTE_R : UInt64 := (1 : UInt64) <<< 1
def PTE_W : UInt64 := (1 : UInt64) <<< 2
def PTE_X : UInt64 := (1 : UInt64) <<< 3
def PTE_U : UInt64 := (1 : UInt64) <<< 4

def PA2PTE (pa : UInt64) : UInt64 := (pa >>> 12) <<< 10
def PTE2PA (pte : UInt64) : UInt64 := (pte >>> 10) <<< 12
def PTE_FLAGS (pte : UInt64) : UInt64 := pte &&& 0x3FF

def PXMASK : UInt64 := 0x1FF
def PXSHIFT (level : Nat) : UInt64 := PGSHIFT + 9 * level.toUInt64
def PX (level : Nat) (va : UInt64) : UInt64 := (va >>> PXSHIFT level) &&& PXMASK

def MAXVA : UInt64 := (1 : UInt64) <<< (9 + 9 + 9 + 12 - 1)

def KERNBASE : UInt64 := 0x80000000
def PHYSTOP : UInt64 := KERNBASE + 128 * 1024 * 1024

/-! ### Physical memory and `kalloc.c` -/

/-- Physical memory, the allocator's free list, and `end`, the first address after the kernel
(set by `kernel.ld`), below which `kfree` refuses a page. -/
structure Phys where
  mem : Nat → UInt8
  freelist : List UInt64
  kend : UInt64

/-- `kfree(pa)`; `none` is `panic("kfree")`.  The page is filled with junk and pushed on the
free list, its first 8 bytes the link `r->next`. -/
def kfree (s : Phys) (pa : UInt64) : Option Phys :=
  if pa % PGSIZE ≠ 0 ∨ pa < s.kend ∨ pa ≥ PHYSTOP then none
  else
    let mem := Mem.fill s.mem pa.toNat PGSIZE.toNat 1
    some { s with mem := Mem.store mem pa.toNat 8 (s.freelist.headD 0).toNat, freelist := pa :: s.freelist }

/-- `kalloc()`: the first free page, filled with junk, or `0` when none is free. -/
def kalloc (s : Phys) : UInt64 × Phys :=
  match s.freelist with
  | [] => (0, s)
  | r :: rest => (r, { s with mem := Mem.fill s.mem r.toNat PGSIZE.toNat 5, freelist := rest })

/-! ### PTEs in memory -/

/-- The PTE at physical address `a`. -/
def ldPte (m : Nat → UInt8) (a : UInt64) : UInt64 := UInt64.ofNat (Mem.load m a.toNat 8)

/-- `*pte = e`. -/
def stPte (m : Nat → UInt8) (a e : UInt64) : Nat → UInt8 := Mem.store m a.toNat 8 e.toNat

theorem toNat_ldPte (m : Nat → UInt8) (a : UInt64) : (ldPte m a).toNat = Mem.load m a.toNat 8 := by
  rw [ldPte, UInt64.toNat_ofNat']
  exact Nat.mod_eq_of_lt (Mem.load_lt m a.toNat 8)

@[simp] theorem ldPte_stPte (m : Nat → UInt8) (a e : UInt64) : ldPte (stPte m a e) a = e := by
  apply UInt64.toNat_inj.mp
  rw [toNat_ldPte, stPte, Mem.load_store]
  exact Nat.mod_eq_of_lt e.toNat_lt

/-- A PTE read depends only on its 8 bytes. -/
theorem ldPte_congr {m m' : Nat → UInt8} {a : UInt64} (h : ∀ j < 8, m' (a.toNat + j) = m (a.toNat + j)) :
    ldPte m' a = ldPte m a := by
  rw [ldPte, ldPte, Mem.load_congr h]

/-! ### `walk` -/

/-- The loop of `walk(pagetable, va, alloc)` from `level` down, `pagetable` the table at that
level: the address of `va`'s level-0 PTE, or `0` for `return 0`, and the memory and free list
after the tables it allocated. -/
def walkFrom (va : UInt64) (alloc : Bool) : Nat → UInt64 → Phys → UInt64 × Phys
  | 0, pagetable, s => (pagetable + 8 * PX 0 va, s)
  | level + 1, pagetable, s =>
    let pte := pagetable + 8 * PX (level + 1) va
    let e := ldPte s.mem pte
    if e &&& PTE_V ≠ 0 then walkFrom va alloc level (PTE2PA e) s
    else if !alloc then (0, s)
    else
      let (p, s) := kalloc s
      if p = 0 then (0, s)
      else walkFrom va alloc level p
        { s with mem := stPte (Mem.fill s.mem p.toNat PGSIZE.toNat 0) pte (PA2PTE p ||| PTE_V) }

/-- `walk(pagetable, va, alloc)`; `none` is `panic("walk")`. -/
def walk (s : Phys) (pagetable va : UInt64) (alloc : Bool) : Option (UInt64 × Phys) :=
  if va ≥ MAXVA then none else some (walkFrom va alloc 2 pagetable s)

/-- `walkaddr(pagetable, va)`: the physical page of a valid user leaf, else `0`. -/
def walkaddr (s : Phys) (pagetable va : UInt64) : UInt64 :=
  if va ≥ MAXVA then 0
  else
    match walk s pagetable va false with
    | some (pte, _) =>
      if pte = 0 then 0
      else if ldPte s.mem pte &&& PTE_V = 0 then 0
      else if ldPte s.mem pte &&& PTE_U = 0 then 0
      else PTE2PA (ldPte s.mem pte)
    -- `walk` panics only at `va ≥ MAXVA`, tested first
    | none => 0

/-! ### Address arithmetic -/

theorem and_two_pow_sub (x : Nat) (h : x < 2 ^ 64) : x &&& (2 ^ 64 - 4096) = x / 4096 * 4096 := by
  have hm : (2 ^ 64 - 4096 : Nat) = (2 ^ 52 - 1) * 2 ^ 12 := by norm_num
  have hd : x / 4096 * 4096 = x / 2 ^ 12 * 2 ^ 12 := by norm_num
  rw [hm, hd]
  apply Nat.eq_of_testBit_eq
  intro i
  rw [Nat.testBit_and, Nat.testBit_mul_two_pow, Nat.testBit_mul_two_pow, Nat.testBit_two_pow_sub_one,
    Nat.testBit_div_two_pow]
  by_cases hi : 12 ≤ i
  · rw [show i - 12 + 12 = i by omega]
    by_cases h64 : i < 64
    · simp [hi, show i - 12 < 52 by omega]
    · -- no bit of `x` at or above 64
      have hx : x.testBit i = false :=
        Nat.testBit_eq_false_of_lt (lt_of_lt_of_le h (Nat.pow_le_pow_right (by norm_num) (by omega)))
      simp [hx]
  · simp [hi]

theorem toNat_PGROUNDDOWN (a : UInt64) : (PGROUNDDOWN a).toNat = a.toNat / 4096 * 4096 := by
  rw [PGROUNDDOWN, UInt64.toNat_and]
  have hm : (~~~(PGSIZE - 1)).toNat = 2 ^ 64 - 4096 := by decide
  rw [hm, and_two_pow_sub _ a.toNat_lt]

theorem toNat_PTE2PA (e : UInt64) : (PTE2PA e).toNat = e.toNat / 1024 * 4096 % 2 ^ 64 := by
  rw [PTE2PA, UInt64.toNat_shiftLeft, UInt64.toNat_shiftRight, Nat.shiftLeft_eq, Nat.shiftRight_eq_div_pow]
  rfl

theorem PTE2PA_aligned (e : UInt64) : (PTE2PA e).toNat % 4096 = 0 := by
  rw [toNat_PTE2PA]
  omega

theorem PTE2PA_le (e : UInt64) : (PTE2PA e).toNat ≤ 2 ^ 64 - 4096 := by
  rw [toNat_PTE2PA]
  omega

theorem toNat_MAXVA : MAXVA.toNat = 2 ^ 38 := rfl

theorem toNat_PGSIZE : PGSIZE.toNat = 4096 := rfl

/-- The page of `va` and its offset in it. -/
theorem toNat_sub_PGROUNDDOWN (a : UInt64) : (a - PGROUNDDOWN a).toNat = a.toNat % 4096 := by
  have h := toNat_PGROUNDDOWN a
  rw [UInt64.toNat_sub_of_le _ _ (UInt64.le_iff_toNat_le.mpr (by omega)), h]
  omega

/-! ### Reading a table without allocating -/

/-- One level of the descent without allocation: on to the next table, or `return 0`. -/
theorem walkFrom_false_succ (va : UInt64) (level : Nat) (pagetable : UInt64) (s : Phys) :
    walkFrom va false (level + 1) pagetable s =
      if ldPte s.mem (pagetable + 8 * PX (level + 1) va) &&& PTE_V ≠ 0 then
        walkFrom va false level (PTE2PA (ldPte s.mem (pagetable + 8 * PX (level + 1) va))) s
      else (0, s) := by
  rw [walkFrom]
  by_cases hv : ldPte s.mem (pagetable + 8 * PX (level + 1) va) &&& PTE_V ≠ 0
  · simp only [if_pos hv]
  · simp only [if_neg hv, Bool.not_false, if_true]

/-- `walk` without allocation changes nothing. -/
theorem walkFrom_false (va : UInt64) :
    ∀ (level : Nat) (pagetable : UInt64) (s : Phys), (walkFrom va false level pagetable s).2 = s
  | 0, _, _ => rfl
  | level + 1, pagetable, s => by
    rw [walkFrom_false_succ]
    split_ifs
    · exact walkFrom_false va level _ s
    · rfl

/-- The PTEs the descent from `pagetable` at `level` reads for `va`, without allocating. -/
def walkReads (m : Nat → UInt8) (va : UInt64) : Nat → UInt64 → List UInt64
  | 0, _ => []
  | level + 1, pagetable =>
    let pte := pagetable + 8 * PX (level + 1) va
    pte :: if ldPte m pte &&& PTE_V ≠ 0 then walkReads m va level (PTE2PA (ldPte m pte)) else []

/-- Two memories that agree on the bytes of the PTEs `a` lists. -/
def AgreeOn (m m' : Nat → UInt8) (a : List UInt64) : Prop :=
  ∀ q ∈ a, ∀ j < 8, m' (q.toNat + j) = m (q.toNat + j)

theorem walkReads_succ (m : Nat → UInt8) (va : UInt64) (level : Nat) (pagetable : UInt64) :
    walkReads m va (level + 1) pagetable =
      (pagetable + 8 * PX (level + 1) va) ::
        if ldPte m (pagetable + 8 * PX (level + 1) va) &&& PTE_V ≠ 0 then
          walkReads m va level (PTE2PA (ldPte m (pagetable + 8 * PX (level + 1) va)))
        else [] := rfl

/-- The descent depends only on the PTEs it reads, and reads the same ones. -/
theorem walkFrom_congr {va : UInt64} {s s' : Phys} :
    ∀ {level : Nat} {pagetable : UInt64}, AgreeOn s.mem s'.mem (walkReads s.mem va level pagetable) →
      (walkFrom va false level pagetable s').1 = (walkFrom va false level pagetable s).1 ∧
        walkReads s'.mem va level pagetable = walkReads s.mem va level pagetable
  | 0, _, _ => ⟨rfl, rfl⟩
  | level + 1, pagetable, h => by
    rw [walkReads_succ] at h
    have he : ldPte s'.mem (pagetable + 8 * PX (level + 1) va) = ldPte s.mem (pagetable + 8 * PX (level + 1) va) :=
      ldPte_congr (h _ List.mem_cons_self)
    rw [walkFrom_false_succ, walkFrom_false_succ, walkReads_succ, walkReads_succ, he]
    by_cases hv : ldPte s.mem (pagetable + 8 * PX (level + 1) va) &&& PTE_V ≠ 0
    · simp only [if_pos hv] at h ⊢
      -- the rest of the reads lie below this level
      have ih := @walkFrom_congr va s s' level _ fun q hq => h q (List.mem_cons_of_mem _ hq)
      exact ⟨ih.1, by rw [ih.2]⟩
    · simp only [if_neg hv, and_self]

/-- The PTEs `walkaddr` reads for `va`: those of the descent, and the leaf it reaches. -/
def walkaddrReads (s : Phys) (pagetable va : UInt64) : List UInt64 :=
  walkReads s.mem va 2 pagetable ++
    if (walkFrom va false 2 pagetable s).1 = 0 then [] else [(walkFrom va false 2 pagetable s).1]

theorem walkaddr_eq (s : Phys) (pagetable va : UInt64) :
    walkaddr s pagetable va =
      if va ≥ MAXVA then 0
      else if (walkFrom va false 2 pagetable s).1 = 0 then 0
      else if ldPte s.mem (walkFrom va false 2 pagetable s).1 &&& PTE_V = 0 then 0
      else if ldPte s.mem (walkFrom va false 2 pagetable s).1 &&& PTE_U = 0 then 0
      else PTE2PA (ldPte s.mem (walkFrom va false 2 pagetable s).1) := by
  unfold walkaddr walk
  by_cases h : va ≥ MAXVA
  · rw [if_pos h, if_pos h]
  · rw [if_neg h, if_neg h, if_neg h]

/-- `walkaddr` depends only on the PTEs it reads, and reads the same ones. -/
theorem walkaddr_congr {s s' : Phys} {pagetable va : UInt64}
    (h : AgreeOn s.mem s'.mem (walkaddrReads s pagetable va)) :
    walkaddr s' pagetable va = walkaddr s pagetable va ∧
      walkaddrReads s' pagetable va = walkaddrReads s pagetable va := by
  have hw := @walkFrom_congr va s s' 2 pagetable fun q hq => h q (List.mem_append_left _ hq)
  rw [walkaddr_eq, walkaddr_eq, walkaddrReads, walkaddrReads, hw.1, hw.2]
  refine ⟨?_, rfl⟩
  by_cases h0 : (walkFrom va false 2 pagetable s).1 = 0
  · simp only [h0, if_true]
  · -- the leaf is read too
    have hl : ldPte s'.mem (walkFrom va false 2 pagetable s).1 = ldPte s.mem (walkFrom va false 2 pagetable s).1 :=
      ldPte_congr (h _ (List.mem_append_right _ (by rw [if_neg h0]; exact List.mem_singleton_self _)))
    simp only [h0, if_false, hl]

/-- `walkaddr` is non-zero just for a page below `MAXVA` whose descent reaches a level-0 PTE at a
non-null address, valid and with `PTE_U`, of a physical page other than `0`. -/
theorem walkaddr_ne_zero_iff (s : Phys) (pagetable va : UInt64) :
    walkaddr s pagetable va ≠ 0 ↔
      va < MAXVA ∧ (walkFrom va false 2 pagetable s).1 ≠ 0 ∧
        ldPte s.mem (walkFrom va false 2 pagetable s).1 &&& PTE_V ≠ 0 ∧
        ldPte s.mem (walkFrom va false 2 pagetable s).1 &&& PTE_U ≠ 0 ∧
        PTE2PA (ldPte s.mem (walkFrom va false 2 pagetable s).1) ≠ 0 := by
  rw [walkaddr_eq]
  by_cases hm : va ≥ MAXVA
  · simp [hm]
  · simp only [hm, if_false]
    split_ifs <;> simp_all [UInt64.not_le]

theorem walkaddr_lt_MAXVA {s : Phys} {pagetable va : UInt64} (h : walkaddr s pagetable va ≠ 0) : va < MAXVA :=
  ((walkaddr_ne_zero_iff s pagetable va).mp h).1

theorem walkaddr_cases (s : Phys) (pagetable va : UInt64) :
    walkaddr s pagetable va = 0 ∨ ∃ e, walkaddr s pagetable va = PTE2PA e := by
  rw [walkaddr_eq]
  split_ifs
  · exact .inl rfl
  · exact .inl rfl
  · exact .inl rfl
  · exact .inl rfl
  · exact .inr ⟨_, rfl⟩

theorem walkaddr_aligned (s : Phys) (pagetable va : UInt64) : (walkaddr s pagetable va).toNat % 4096 = 0 := by
  rcases walkaddr_cases s pagetable va with h | ⟨e, h⟩
  · rw [h]
    rfl
  · rw [h]
    exact PTE2PA_aligned e

theorem walkaddr_le (s : Phys) (pagetable va : UInt64) : (walkaddr s pagetable va).toNat ≤ 2 ^ 64 - 4096 := by
  rcases walkaddr_cases s pagetable va with h | ⟨e, h⟩
  · rw [h]
    simp
  · rw [h]
    exact PTE2PA_le e

end Xv6Sched.Vm
