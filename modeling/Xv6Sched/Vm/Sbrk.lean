import Xv6Sched.Vm.Alloc
import Xv6Sched.Vm.Fork
import Xv6Sched.Lib.Lts

/-!
# Xv6Sched.Vm.Sbrk — `growproc` (`kernel/proc.c`) and `sys_sbrk` (`kernel/sysproc.c`)

`growproc` keeps the size in a `uint` and adds the `int` argument to it in `uint` arithmetic:
`sz + n` is taken modulo `2 ^ 32` before it becomes the `uint64` bound for `uvmalloc` or
`uvmdealloc`.  A shrink by more than the size wraps to a bound above the size, which
`uvmdealloc` takes as nothing to do: `growproc` returns `0` with the size unchanged, and
`sys_sbrk` reports success (`sbrk_shrink_below_zero_succeeds`).  A shrink within the size unmaps
and frees the pages above the new size (`growproc_shrink_spec`).

`ProcMem` is how the memory of a process stands to its size: every page below `PGROUNDUP(sz)`
mapped by a leaf `uvmunmap` may free, none above it within the reach of a `uint`.  `growproc` keeps
it for every argument, whether `uvmalloc` succeeds, runs out of memory, or the `uint` sum wraps
(`growproc_spec`), so no run of `sbrk` calls panics (`sbrk_keeps_procMem`).
-/

namespace Xv6Sched.Vm

/-- `growproc(n)` of the process with page table `pagetable` and `p->sz = psz`: the return value,
the new `p->sz`, and the memory.  On failure `p->sz` is not written. -/
def growproc (s : Phys) (pagetable psz : UInt64) (n : Int32) : Option (Int × UInt64 × Phys) :=
  -- `uint sz = p->sz`; `sz + n` converts `n` to `uint`
  let sz : UInt32 := psz.toUInt32
  if n > 0 then
    (uvmalloc s pagetable sz.toUInt64 (sz + n.toUInt32).toUInt64).map fun r =>
      -- the `uint64` result of `uvmalloc` is stored in the `uint sz` before the test
      if r.1.toUInt32 = 0 then (-1, psz, r.2) else (0, r.1.toUInt32.toUInt64, r.2)
  else if n < 0 then
    (uvmdealloc s pagetable sz.toUInt64 (sz + n.toUInt32).toUInt64).map fun r =>
      (0, r.1.toUInt32.toUInt64, r.2)
  else some (0, sz.toUInt64, s)

/-- `sys_sbrk()` with `argint(0, &n)` giving `n`: the value it returns, the new `p->sz`, and the
memory. -/
def sysSbrk (s : Phys) (pagetable psz : UInt64) (n : Int32) : Option (UInt64 × UInt64 × Phys) :=
  -- `int addr = myproc()->sz`, returned as `uint64`
  let addr : Int32 := psz.toUInt32.toInt32
  (growproc s pagetable psz n).map fun r =>
    if r.1 < 0 then (-1, r.2.1, r.2.2) else (addr.toInt64.toUInt64, r.2.1, r.2.2)

/-- A negative `int` converted to `unsigned` is `n + 2 ^ 32`. -/
theorem toNat_toUInt32_of_neg {n : Int32} (h : n.toInt < 0) :
    (n.toUInt32.toNat : Int) = n.toInt + 2 ^ 32 := by
  have h1 : n.toInt = ((n.toUInt32.toNat : Int)).bmod (2 ^ 32) := by
    rw [← Int32.toInt_toBitVec, BitVec.toInt_eq_toNat_bmod, ← Int32.toBitVec_toUInt32,
      UInt32.toNat_toBitVec]
  have h2 := n.toUInt32.toNat_lt
  rw [Int.bmod_def, Int.emod_eq_of_lt (by omega) (by omega)] at h1
  split_ifs at h1 <;> omega

/-- A size below `2 ^ 31` survives `uint sz` and `int addr`. -/
theorem toUInt32_toUInt64_of_lt {psz : UInt64} (hsz : psz.toNat < 2 ^ 31) :
    psz.toUInt32.toUInt64 = psz := by
  apply UInt64.toNat_inj.mp
  rw [UInt32.toNat_toUInt64, UInt64.toNat_toUInt32, Nat.mod_eq_of_lt (by omega)]

theorem addr_of_lt {psz : UInt64} (hsz : psz.toNat < 2 ^ 31) :
    psz.toUInt32.toInt32.toInt64.toUInt64 = psz := by
  have h := toNat_npages hsz
  rw [UInt64.toNat_inj] at h
  exact h

/-- The `uint` sum `sz + n` of a shrink by more than the size wraps to `sz + n + 2 ^ 32`, above the
size. -/
theorem toNat_add_of_neg {psz : UInt64} {n : Int32} (hsz : psz.toNat < 2 ^ 31)
    (hn : (psz.toNat : Int) + n.toInt < 0) :
    ((psz.toUInt32 + n.toUInt32).toUInt64.toNat : Int) = psz.toNat + n.toInt + 2 ^ 32 := by
  have hneg : n.toInt < 0 := by omega
  have hconv := toNat_toUInt32_of_neg hneg
  have hlo := Int32.le_toInt n
  rw [UInt32.toNat_toUInt64, UInt32.toNat_add, UInt64.toNat_toUInt32, Nat.mod_eq_of_lt (by omega)]
  omega

/-- The `uint` sum `sz + n` of a shrink within the size is `sz + n`. -/
theorem toNat_add_of_nonneg {psz : UInt64} {n : Int32} (hsz : psz.toNat < 2 ^ 31)
    (hn : n.toInt < 0) (hge : 0 ≤ (psz.toNat : Int) + n.toInt) :
    ((psz.toUInt32 + n.toUInt32).toUInt64.toNat : Int) = psz.toNat + n.toInt := by
  have hconv := toNat_toUInt32_of_neg hn
  -- the sum passes `2 ^ 32` and wraps back to `sz + n`
  rw [UInt32.toNat_toUInt64, UInt32.toNat_add, UInt64.toNat_toUInt32]
  omega

/-- A shrink within the size: `growproc` returns `0` with the size `sz + n`, having unmapped and
freed the pages of `[PGROUNDUP(sz + n), PGROUNDUP(sz))`. -/
theorem growproc_shrink_spec {s : Phys} {pagetable psz newsz : UInt64} {n : Int32}
    (hg : Good s pagetable) (hsz : psz.toNat < 2 ^ 31) (hn : n.toInt < 0)
    (hnew : (newsz.toNat : Int) = psz.toNat + n.toInt)
    (hfree : ∀ va < MAXVA, (PGROUNDUP newsz).toNat ≤ va.toNat → va.toNat < (PGROUNDUP psz).toNat →
      Freeable s pagetable va) :
    ∃ s', growproc s pagetable psz n = some (0, newsz, s') ∧
      Unmapped pagetable (PGROUNDUP newsz).toNat (PGROUNDUP psz).toNat s s' := by
  have hneg : n < 0 := Int32.lt_iff_toInt_lt.mpr (by simp; omega)
  have hnpos : ¬ n > 0 := fun h => by
    have := Int32.lt_iff_toInt_lt.mp h
    simp at this
    omega
  -- the bound `growproc` computes is `newsz`, below the size and `MAXVA`
  have hbound : (psz.toUInt32 + n.toUInt32).toUInt64 = newsz :=
    UInt64.toNat_inj.mp (by have := toNat_add_of_nonneg hsz hn (by omega); omega)
  have hmax : psz ≤ MAXVA := UInt64.le_iff_toNat_le.mpr (by rw [toNat_MAXVA]; omega)
  have hmax' : newsz ≤ MAXVA := UInt64.le_iff_toNat_le.mpr (by rw [toNat_MAXVA]; omega)
  have hlt : newsz < psz := UInt64.lt_iff_toNat_lt.mpr (by omega)
  obtain ⟨s', hrun, hu⟩ := uvmdealloc_spec hg hmax hmax' hfree
  rw [if_pos hlt] at hrun
  refine ⟨s', ?_, hu⟩
  simp only [growproc, hnpos, if_false, hneg, if_true, toUInt32_toUInt64_of_lt hsz, hbound, hrun,
    Option.map_some, toUInt32_toUInt64_of_lt (show newsz.toNat < 2 ^ 31 by omega)]

/-- `sbrk(n)` with `n < -sz` reports success: it returns the old size and leaves the size and the
memory as they were, since `uvmdealloc` gets a new size above the old one. -/
theorem sbrk_shrink_below_zero_succeeds (s : Phys) (pagetable psz : UInt64) (n : Int32)
    (hsz : psz.toNat < 2 ^ 31) (hn : (psz.toNat : Int) + n.toInt < 0) :
    sysSbrk s pagetable psz n = some (psz, psz, s) := by
  have hneg : n < 0 := Int32.lt_iff_toInt_lt.mpr (by simp; omega)
  have hnpos : ¬ n > 0 := fun h => by
    have := Int32.lt_iff_toInt_lt.mp h
    simp at this
    omega
  have hwrap := toNat_add_of_neg hsz hn
  -- the bound `uvmdealloc` gets is not below the size, so it returns the size
  have hge : (psz.toUInt32 + n.toUInt32).toUInt64 ≥ psz := by
    have hlo := Int32.le_toInt n
    apply UInt64.le_iff_toNat_le.mpr
    omega
  simp only [sysSbrk, growproc, hnpos, if_false, hneg, if_true, uvmdealloc,
    toUInt32_toUInt64_of_lt hsz, hge, Option.map_some, addr_of_lt hsz]
  rfl

theorem sbrk_shrink_below_zero_succeeds_one_page :
    (4096 : UInt64).toNat < 2 ^ 31 ∧ ((4096 : UInt64).toNat : Int) + (-8192 : Int32).toInt < 0 ∧
      sysSbrk ⟨fun _ => 0, [], 0⟩ 0 4096 (-8192) = some (4096, 4096, ⟨fun _ => 0, [], 0⟩) :=
  ⟨by decide, by decide,
    sbrk_shrink_below_zero_succeeds ⟨fun _ => 0, [], 0⟩ 0 4096 (-8192) (by decide) (by decide)⟩

/-! ### The memory of a process across `sbrk` calls -/

/-- The memory of a process of size `sz`: the invariant, every page below `PGROUNDUP(sz)` mapped by
a leaf `uvmunmap` may free, and no leaf from there up to `2 ^ 32`, the reach of the `uint` size
`growproc` computes. -/
structure ProcMem (s : Phys) (pagetable sz : UInt64) : Prop where
  good : Good s pagetable
  sz_lt : sz.toNat < 2 ^ 32
  mapped : ∀ va < MAXVA, va.toNat < (PGROUNDUP sz).toNat → Freeable s pagetable va
  unmapped : ∀ va < MAXVA, (PGROUNDUP sz).toNat ≤ va.toNat → va.toNat < 2 ^ 32 → leaf s.mem pagetable va = none

/-- An `int` converted to `unsigned` is its value modulo `2 ^ 32`. -/
theorem toNat_toUInt32_emod (n : Int32) : (n.toUInt32.toNat : Int) = n.toInt % 2 ^ 32 := by
  have h1 : n.toInt = ((n.toUInt32.toNat : Int)).bmod (2 ^ 32) := by
    rw [← Int32.toInt_toBitVec, BitVec.toInt_eq_toNat_bmod, ← Int32.toBitVec_toUInt32,
      UInt32.toNat_toBitVec]
  have h2 := n.toUInt32.toNat_lt
  rw [Int.bmod_def] at h1
  split_ifs at h1 <;> omega

/-- The `uint` sum `sz + n` of `growproc`. -/
theorem toNat_uint_add {psz : UInt64} (hsz : psz.toNat < 2 ^ 32) (n : Int32) :
    ((psz.toUInt32 + n.toUInt32).toUInt64.toNat : Int) = (psz.toNat + n.toInt) % 2 ^ 32 := by
  have hn := toNat_toUInt32_emod n
  rw [UInt32.toNat_toUInt64, UInt32.toNat_add, UInt64.toNat_toUInt32, Nat.mod_eq_of_lt hsz]
  omega

theorem toUInt32_toUInt64_eq {x : UInt64} (hx : x.toNat < 2 ^ 32) : x.toUInt32.toUInt64 = x := by
  apply UInt64.toNat_inj.mp
  rw [UInt32.toNat_toUInt64, UInt64.toNat_toUInt32, Nat.mod_eq_of_lt hx]

section ProcMem

variable {s s' : Phys} {pagetable sz sz' : UInt64}

theorem Freeable.transfer {va : UInt64} (h : Freeable s pagetable va)
    (hl : leaf s'.mem pagetable va = leaf s.mem pagetable va) (hk : s'.kend = s.kend) : Freeable s' pagetable va := by
  obtain ⟨e, he, hf, hk', hP⟩ := h
  exact ⟨e, hl.trans he, hf, hk ▸ hk', hP⟩

/-- A failed grow leaves the memory as it stands to the size. -/
theorem ProcMem.restored (hu : ProcMem s pagetable sz) (hr : Restored pagetable s s') : ProcMem s' pagetable sz where
  good := hr.good
  sz_lt := hu.sz_lt
  mapped va hva h := (hu.mapped va hva h).transfer (hr.leaves va hva) hr.kend
  unmapped va hva h1 h2 := (hr.leaves va hva).trans (hu.unmapped va hva h1 h2)

theorem toNat_PGROUNDUP_le {x y : UInt64} (hxy : x ≤ y) (hy : y ≤ MAXVA) :
    (PGROUNDUP x).toNat ≤ (PGROUNDUP y).toNat := by
  have h := UInt64.le_iff_toNat_le.mp hxy
  rw [toNat_PGROUNDUP (UInt64.le_trans hxy hy), toNat_PGROUNDUP hy]
  omega

theorem le_MAXVA_of_lt {x : UInt64} (hx : x.toNat < 2 ^ 32) : x ≤ MAXVA :=
  UInt64.le_iff_toNat_le.mpr (by rw [toNat_MAXVA]; omega)

/-- A grow maps the pages up to the new size with leaves `uvmunmap` may free. -/
theorem ProcMem.mapped_to {flags : UInt64 → UInt64} {content : UInt64 → Nat → UInt8} (hu : ProcMem s pagetable sz)
    (hm : Mapped pagetable flags content (PGROUNDUP sz).toNat (PGROUNDUP sz').toNat s s') (hle : sz ≤ sz')
    (hsz' : sz'.toNat < 2 ^ 32) (hperm : ∀ va, flags va ||| PTE_V ≠ PTE_V) : ProcMem s' pagetable sz' where
  good := hm.good
  sz_lt := hsz'
  mapped va hva h := by
    by_cases hlo : va.toNat < (PGROUNDUP sz).toNat
    · exact (hu.mapped va hva hlo).transfer (hm.others va hva (by omega)) hm.kend
    · exact hm.freeable (Restored.refl hm.good) hu.good hva (by omega) h (hperm va)
  unmapped va hva h1 h2 := by
    have hmono := toNat_PGROUNDUP_le hle (le_MAXVA_of_lt hsz')
    rw [hm.others va hva (by omega)]
    exact hu.unmapped va hva (by omega) h2

/-- A shrink unmaps the pages above the new size. -/
theorem ProcMem.unmapped_to (hu : ProcMem s pagetable sz)
    (hm : Unmapped pagetable (PGROUNDUP sz').toNat (PGROUNDUP sz).toNat s s') (hle : sz' ≤ sz) :
    ProcMem s' pagetable sz' where
  good := hm.good
  sz_lt := by
    have := UInt64.le_iff_toNat_le.mp hle
    have := hu.sz_lt
    omega
  mapped va hva h := by
    have hmono := toNat_PGROUNDUP_le hle (le_MAXVA_of_lt hu.sz_lt)
    exact (hu.mapped va hva (by omega)).transfer (by rw [hm.leaves va hva, if_neg (by omega)]) hm.kend
  unmapped va hva h1 h2 := by
    rw [hm.leaves va hva]
    split_ifs with h
    · rfl
    · exact hu.unmapped va hva (by omega) h2

end ProcMem

/-- `growproc(n)` for a process whose memory stands to its size `psz`, for every `n`: it never
panics and keeps the memory standing to the new size.  It returns `0` with the size `psz + n` when
that is a `uint`, and with the size unchanged when the `uint` sum wraps; or, when `uvmalloc` runs out
of memory on a grow, `-1` with the size and every leaf unchanged. -/
theorem growproc_spec {s : Phys} {pagetable psz : UInt64} (hu : ProcMem s pagetable psz) (n : Int32) :
    ∃ r sz' s', growproc s pagetable psz n = some (r, sz', s') ∧ ProcMem s' pagetable sz' ∧
      (r = 0 ∧ (sz'.toNat : Int) = (if 0 ≤ (psz.toNat : Int) + n.toInt ∧ (psz.toNat : Int) + n.toInt < 2 ^ 32
          then psz.toNat + n.toInt else psz.toNat) ∨
        r = -1 ∧ 0 < n.toInt ∧ sz' = psz ∧ ∀ va < MAXVA, leaf s'.mem pagetable va = leaf s.mem pagetable va) := by
  have hsz := hu.sz_lt
  have hsum := toNat_uint_add hsz n
  have hlo := Int32.le_toInt n
  have hhi := Int32.toInt_lt n
  have hpsz := toUInt32_toUInt64_eq hsz
  -- the `uint` bound `sz + n` that `growproc` passes on
  generalize hb : (psz.toUInt32 + n.toUInt32).toUInt64 = newsz at hsum
  have hnew : newsz.toNat < 2 ^ 32 := by omega
  by_cases hpos : n > 0
  · have hpos' : 0 < n.toInt := by simpa using Int32.lt_iff_toInt_lt.mp hpos
    by_cases hwrap : (psz.toNat : Int) + n.toInt < 2 ^ 32
    · -- a grow: `uvmalloc` of the pages up to `PGROUNDUP(sz + n)`
      have hle : psz ≤ newsz := UInt64.le_iff_toNat_le.mpr (by omega)
      obtain ⟨r, s', huv, hcase⟩ := uvmalloc_spec hu.good hle (le_MAXVA_of_lt hnew) fun va hva h1 h2 => by
        have := toNat_PGROUNDUP_le (UInt64.le_refl newsz) (le_MAXVA_of_lt hnew)
        rw [toNat_PGROUNDUP (le_MAXVA_of_lt hnew)] at h2
        exact hu.unmapped va hva h1 (by omega)
      rcases hcase with ⟨hr, hm⟩ | ⟨hr, hr'⟩
      · rw [hr] at huv
        have hne : newsz.toUInt32 ≠ 0 := fun h => by
          have := congrArg UInt32.toNat h
          rw [UInt64.toNat_toUInt32, Nat.mod_eq_of_lt hnew, UInt32.toNat_zero] at this
          omega
        refine ⟨0, newsz, s', ?_, hu.mapped_to hm hle hnew fun _ => by decide, .inl ⟨rfl, ?_⟩⟩
        · simp only [growproc, if_pos hpos, hpsz, hb, huv, Option.map_some, if_neg hne, toUInt32_toUInt64_eq hnew]
        · rw [if_pos ⟨by omega, hwrap⟩]
          omega
      · rw [hr] at huv
        refine ⟨-1, psz, s', ?_, hu.restored hr', .inr ⟨rfl, hpos', rfl, hr'.leaves⟩⟩
        simp only [growproc, if_pos hpos, hpsz, hb, huv, Option.map_some]
        rfl
    · -- the sum wraps below the size: `uvmalloc` returns the size and does nothing
      have hlt : newsz < psz := UInt64.lt_iff_toNat_lt.mpr (by omega)
      have hne : psz.toUInt32 ≠ 0 := fun h => by
        have := congrArg UInt32.toNat h
        rw [UInt64.toNat_toUInt32, Nat.mod_eq_of_lt hsz, UInt32.toNat_zero] at this
        omega
      refine ⟨0, psz, s, ?_, hu, .inl ⟨rfl, by rw [if_neg (by omega)]⟩⟩
      simp only [growproc, if_pos hpos, hpsz, hb, uvmalloc, if_pos hlt, Option.map_some, if_neg hne]
  · by_cases hneg : n < 0
    · have hneg' : n.toInt < 0 := by simpa using Int32.lt_iff_toInt_lt.mp hneg
      by_cases hwrap : 0 ≤ (psz.toNat : Int) + n.toInt
      · -- a shrink: `uvmdealloc` of the pages from `PGROUNDUP(sz + n)`
        have hlt : newsz < psz := UInt64.lt_iff_toNat_lt.mpr (by omega)
        obtain ⟨s', hd, hun⟩ := uvmdealloc_spec hu.good (le_MAXVA_of_lt hsz) (le_MAXVA_of_lt hnew)
          fun va hva _ h2 => hu.mapped va hva h2
        rw [if_pos hlt] at hd
        refine ⟨0, newsz, s', ?_, hu.unmapped_to hun (UInt64.le_of_lt hlt), .inl ⟨rfl, ?_⟩⟩
        · simp only [growproc, if_neg hpos, if_pos hneg, hpsz, hb, hd, Option.map_some, toUInt32_toUInt64_eq hnew]
        · rw [if_pos ⟨hwrap, by omega⟩]
          omega
      · -- the sum wraps above the size: `uvmdealloc` returns the size and does nothing
        have hge : newsz ≥ psz := UInt64.le_iff_toNat_le.mpr (by omega)
        refine ⟨0, psz, s, ?_, hu, .inl ⟨rfl, by rw [if_neg (by omega)]⟩⟩
        simp only [growproc, if_neg hpos, if_pos hneg, hpsz, hb, uvmdealloc, if_pos hge, Option.map_some]
    · have hzero : n.toInt = 0 := by
        have h1 : ¬ 0 < n.toInt := fun h => hpos (by simpa [Int32.lt_iff_toInt_lt] using h)
        have h2 : ¬ n.toInt < 0 := fun h => hneg (by simpa [Int32.lt_iff_toInt_lt] using h)
        omega
      refine ⟨0, psz, s, ?_, hu, .inl ⟨rfl, by rw [hzero, if_pos ⟨by omega, by omega⟩]; omega⟩⟩
      simp only [growproc, if_neg hpos, if_neg hneg, hpsz]

/-- The parent of `Xv6Sched.Vm.Fork`: its one page `0` mapped, three pages free. -/
theorem procMem_onePage : ProcMem onePage 0x1000 4096 where
  good := good_onePage_old
  sz_lt := by decide
  mapped := freeable_onePage
  unmapped va hva hlo _ := by
    have : (PGROUNDUP 4096).toNat = 4096 := by decide
    rw [leaf_onePage_old hva, if_neg (by omega)]

theorem growproc_spec_onePage :
    ProcMem onePage 0x1000 4096 ∧ ∃ r sz' s', growproc onePage 0x1000 4096 4096 = some (r, sz', s') ∧
      ProcMem s' 0x1000 sz' ∧
      (r = 0 ∧ (sz'.toNat : Int) = (if 0 ≤ ((4096 : UInt64).toNat : Int) + (4096 : Int32).toInt ∧
          ((4096 : UInt64).toNat : Int) + (4096 : Int32).toInt < 2 ^ 32
          then (4096 : UInt64).toNat + (4096 : Int32).toInt else (4096 : UInt64).toNat) ∨
        r = -1 ∧ 0 < (4096 : Int32).toInt ∧ sz' = 4096 ∧
          ∀ va < MAXVA, leaf s'.mem 0x1000 va = leaf onePage.mem 0x1000 va) :=
  ⟨procMem_onePage, growproc_spec procMem_onePage 4096⟩

/-- A process calling `sbrk`: its size and memory after one more call. -/
def sbrkStep (pagetable : UInt64) (st : UInt64 × Phys) (n : Int32) : Option (UInt64 × Phys) :=
  (sysSbrk st.2 pagetable st.1 n).map fun r => (r.2.1, r.2.2)

/-- From a process whose memory stands to its size, over every run of `sbrk` calls: the memory
stands to the size at every state reached, and no call from there panics. -/
theorem sbrk_keeps_procMem (pagetable : UInt64) {init : UInt64 × Phys} (h0 : ProcMem init.2 pagetable init.1) :
    ∀ {st}, LTS.Reachable (sbrkStep pagetable) init st →
      ProcMem st.2 pagetable st.1 ∧ ∀ n, ∃ st', sbrkStep pagetable st n = some st' := by
  have hstep : ∀ st n st', ProcMem st.2 pagetable st.1 → sbrkStep pagetable st n = some st' →
      ProcMem st'.2 pagetable st'.1 := by
    intro st n st' hu h
    obtain ⟨r, sz', s', hg, hu', -⟩ := growproc_spec hu n
    simp only [sbrkStep, sysSbrk, hg, Option.map_some, Option.some.injEq] at h
    subst h
    split_ifs <;> exact hu'
  intro st hr
  have hu := LTS.Reachable.inv (P := fun st : UInt64 × Phys => ProcMem st.2 pagetable st.1) h0 hstep hr
  refine ⟨hu, fun n => ?_⟩
  obtain ⟨r, sz', s', hg, -⟩ := growproc_spec hu n
  refine ⟨(sz', s'), ?_⟩
  simp only [sbrkStep, sysSbrk, hg, Option.map_some]
  split_ifs <;> rfl

theorem sbrk_keeps_procMem_onePage :
    ProcMem onePage 0x1000 4096 ∧ ∀ st, LTS.Reachable (sbrkStep 0x1000) (4096, onePage) st →
      ProcMem st.2 0x1000 st.1 ∧ ∀ n, ∃ st', sbrkStep 0x1000 st n = some st' :=
  ⟨procMem_onePage, fun _ hr => sbrk_keeps_procMem 0x1000 procMem_onePage hr⟩

end Xv6Sched.Vm
