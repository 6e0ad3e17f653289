import Xv6Sched.Vm.Pagetable

/-!
# Xv6Sched.Vm.Copy — `copyin`, `copyout` and `copyinstr` through a page table

The three loops of `vm.c` take a user range a page at a time: `va0 = PGROUNDDOWN(va)`, `walkaddr`
of it, at most `PGSIZE - (va - va0)` bytes, and on at `va0 + PGSIZE`.  An address of the range lies
on a mapped user page when it is below `MAXVA` and `walkaddr` of its page is non-zero
(`UserMapped`, `Covered`), and `paOf` is the physical address it translates to.  A range is covered
when the page of its start is and the rest of it is (`covered_step`); each loop is one induction on
that step.

`copyin` reads the translated bytes of a covered range and fails on any other (`copyinLoop_spec`).
`copyout` writes physical memory, which holds the page tables too.  When no byte it writes lies in
a PTE `walkaddr` reads for the range (`NoAlias`), every walk of the range stays as it was
(`SameWalks`), so `copyout` succeeds just when `copyin` does, and writes `src` at the translated
addresses when they are distinct (`copyoutLoop_spec`, `copyin_copyout_translate`).  A user page
mapped onto its own level-0 table loses its leaf to a `copyout`, and a valid user leaf of physical
page `0` is one `walkaddr` does not see (`copyin_copyout_diverge`).

`copyinstr`'s inner loop stops at the first NUL (`copyinstrInner_of_nul`) or copies its whole chunk
(`copyinstrInner_of_ne`); the outer loop finds the string at `srcva` when it ends within `max` bytes
(`StrAt`, `copyinstrLoop_spec`, `copyinstr_finds_nul`).  The kernel's buffers `dst` and `src` are
kept apart from the physical pages the table maps.
-/

namespace Xv6Sched.Vm

/-! ### The pages of a range -/

/-- The page of the address `a`. -/
def pageOf (a : Nat) : UInt64 := UInt64.ofNat (a / 4096 * 4096)

/-- The user page of address `a` is mapped: `a` lies below `MAXVA` and `walkaddr` of its page is
non-zero. -/
def UserMapped (s : Phys) (pagetable : UInt64) (a : Nat) : Prop :=
  a < MAXVA.toNat ∧ walkaddr s pagetable (pageOf a) ≠ 0

instance (s : Phys) (pagetable : UInt64) (a : Nat) : Decidable (UserMapped s pagetable a) :=
  inferInstanceAs (Decidable (_ ∧ _))

/-- The physical address the virtual address `a` translates to. -/
def paOf (s : Phys) (pagetable : UInt64) (a : Nat) : Nat :=
  (walkaddr s pagetable (pageOf a)).toNat + a % 4096

/-- Every address of `va .. va + len` lies on a mapped user page. -/
def Covered (s : Phys) (pagetable : UInt64) (va len : Nat) : Prop :=
  ∀ k < len, UserMapped s pagetable (va + k)

instance (s : Phys) (pagetable : UInt64) (va len : Nat) : Decidable (Covered s pagetable va len) :=
  inferInstanceAs (Decidable (∀ k < len, _))

theorem pageOf_toNat (a : UInt64) : pageOf a.toNat = PGROUNDDOWN a := by
  apply UInt64.toNat_inj.mp
  have := a.toNat_lt
  rw [pageOf, UInt64.toNat_ofNat', toNat_PGROUNDDOWN]
  omega

/-- How much of the page of `a` one pass copies: `n = PGSIZE - (a - va0)`, at most `len`. -/
theorem toNat_chunk (a len : UInt64) :
    (if PGSIZE - (a - PGROUNDDOWN a) > len then len else PGSIZE - (a - PGROUNDDOWN a)).toNat =
      min (4096 - a.toNat % 4096) len.toNat := by
  have hoff := toNat_sub_PGROUNDDOWN a
  have hn : (PGSIZE - (a - PGROUNDDOWN a)).toNat = 4096 - a.toNat % 4096 := by
    rw [UInt64.toNat_sub_of_le _ _ (UInt64.le_iff_toNat_le.mpr (by rw [hoff, toNat_PGSIZE]; omega)), hoff,
      toNat_PGSIZE]
  split_ifs with h
  · rw [gt_iff_lt, UInt64.lt_iff_toNat_lt, hn] at h
    omega
  · rw [gt_iff_lt, UInt64.lt_iff_toNat_lt, hn] at h
    omega

theorem toNat_sub_chunk (a len : UInt64) :
    (len - if PGSIZE - (a - PGROUNDDOWN a) > len then len else PGSIZE - (a - PGROUNDDOWN a)).toNat =
      len.toNat - min (4096 - a.toNat % 4096) len.toNat := by
  have h1 := toNat_chunk a len
  rw [UInt64.toNat_sub_of_le _ _ (UInt64.le_iff_toNat_le.mpr (by omega)), h1]

theorem toNat_pos {len : UInt64} (h : len > 0) : 0 < len.toNat := UInt64.lt_iff_toNat_lt.mp h

theorem toNat_eq_zero {len : UInt64} (h : ¬ len > 0) : len.toNat = 0 := by
  simpa [UInt64.lt_iff_toNat_lt] using h

/-- A pass takes at least one byte off `len`. -/
theorem toNat_sub_chunk_lt {a len : UInt64} (h : len > 0) :
    (len - if PGSIZE - (a - PGROUNDDOWN a) > len then len else PGSIZE - (a - PGROUNDDOWN a)).toNat < len.toNat := by
  rw [toNat_sub_chunk]
  have := toNat_chunk a len
  have := toNat_pos h
  omega

section Pages

variable {s : Phys} {pagetable : UInt64}

/-- The next page after a mapped one. -/
theorem toNat_next_page {a : UInt64} (h : walkaddr s pagetable (PGROUNDDOWN a) ≠ 0) :
    (PGROUNDDOWN a + PGSIZE).toNat = a.toNat / 4096 * 4096 + 4096 := by
  have hm := walkaddr_lt_MAXVA h
  rw [UInt64.lt_iff_toNat_lt, toNat_PGROUNDDOWN, toNat_MAXVA] at hm
  rw [UInt64.toNat_add, toNat_PGROUNDDOWN, toNat_PGSIZE]
  omega

/-- The physical address of `a`'s offset in its page. -/
theorem toNat_pa_off (v a : UInt64) :
    (walkaddr s pagetable v + (a - PGROUNDDOWN a)).toNat = (walkaddr s pagetable v).toNat + a.toNat % 4096 := by
  have hle := walkaddr_le s pagetable v
  rw [UInt64.toNat_add, toNat_sub_PGROUNDDOWN]
  omega

/-- The addresses of the rest of `a`'s page translate through it. -/
theorem paOf_of_lt {a : UInt64} {k : Nat} (hk : k < 4096 - a.toNat % 4096) :
    paOf s pagetable (a.toNat + k) = (walkaddr s pagetable (PGROUNDDOWN a)).toNat + a.toNat % 4096 + k := by
  have hp : (a.toNat + k) / 4096 * 4096 = a.toNat / 4096 * 4096 := by omega
  rw [paOf, pageOf, hp, ← pageOf, pageOf_toNat]
  omega

theorem userMapped_of_lt {a : UInt64} {k : Nat} (h : walkaddr s pagetable (PGROUNDDOWN a) ≠ 0)
    (hk : k < 4096 - a.toNat % 4096) : UserMapped s pagetable (a.toNat + k) := by
  have hm := walkaddr_lt_MAXVA h
  rw [UInt64.lt_iff_toNat_lt, toNat_PGROUNDDOWN, toNat_MAXVA] at hm
  have hp : (a.toNat + k) / 4096 * 4096 = a.toNat / 4096 * 4096 := by omega
  refine ⟨by rw [toNat_MAXVA]; omega, ?_⟩
  rw [pageOf, hp, ← pageOf, pageOf_toNat]
  exact h

/-- A range is covered when the page of its start is mapped and the rest of the range, from the
next page on, is covered. -/
theorem covered_step {a len : UInt64} (hlen : 0 < len.toNat) :
    Covered s pagetable a.toNat len.toNat ↔
      walkaddr s pagetable (PGROUNDDOWN a) ≠ 0 ∧
        Covered s pagetable (a.toNat / 4096 * 4096 + 4096) (len.toNat - min (4096 - a.toNat % 4096) len.toNat) := by
  constructor
  · intro h
    have h0 := (h 0 hlen).2
    rw [Nat.add_zero, pageOf_toNat] at h0
    refine ⟨h0, fun k hk => ?_⟩
    have := h (4096 - a.toNat % 4096 + k) (by omega)
    rwa [show a.toNat + (4096 - a.toNat % 4096 + k) = a.toNat / 4096 * 4096 + 4096 + k by omega] at this
  · rintro ⟨h0, hrest⟩ k hk
    by_cases hkn : k < 4096 - a.toNat % 4096
    · exact userMapped_of_lt h0 hkn
    · have := hrest (k - (4096 - a.toNat % 4096)) (by omega)
      rwa [show a.toNat / 4096 * 4096 + 4096 + (k - (4096 - a.toNat % 4096)) = a.toNat + k by omega] at this

end Pages

/-! ### `copyin` -/

/-- The loop of `copyin(pagetable, dst, srcva, len)` once `d` bytes are in the kernel buffer
`dst`: `0`, or `-1` at the first page that is not mapped. -/
def copyinLoop (s : Phys) (pagetable : UInt64) (dst : Nat → UInt8) (d : Nat) (srcva len : UInt64) :
    Int × (Nat → UInt8) :=
  if len > 0 then
    let va0 := PGROUNDDOWN srcva
    let pa0 := walkaddr s pagetable va0
    if pa0 = 0 then (-1, dst)
    else
      let n := PGSIZE - (srcva - va0)
      let n := if n > len then len else n
      copyinLoop s pagetable (Mem.copy dst d n.toNat fun k => s.mem ((pa0 + (srcva - va0)).toNat + k))
        (d + n.toNat) (va0 + PGSIZE) (len - n)
  else (0, dst)
termination_by len.toNat
decreasing_by
  simp only [dite_eq_ite]
  exact toNat_sub_chunk_lt ‹len > 0›

/-- `copyin(pagetable, dst, srcva, len)`. -/
def copyin (s : Phys) (pagetable : UInt64) (dst : Nat → UInt8) (srcva len : UInt64) : Int × (Nat → UInt8) :=
  copyinLoop s pagetable dst 0 srcva len

/-- The loop copies the bytes the range translates to when it is covered, and fails otherwise. -/
theorem copyinLoop_spec (s : Phys) (pagetable : UInt64) (dst : Nat → UInt8) (d : Nat) (srcva len : UInt64) :
    (Covered s pagetable srcva.toNat len.toNat →
      copyinLoop s pagetable dst d srcva len =
        (0, Mem.copy dst d len.toNat fun k => s.mem (paOf s pagetable (srcva.toNat + k)))) ∧
    (¬ Covered s pagetable srcva.toNat len.toNat → (copyinLoop s pagetable dst d srcva len).1 = -1) := by
  induction dst, d, srcva, len using copyinLoop.induct s pagetable with
  | case1 dst d srcva len hlen va0 pa0 h0 =>
    simp only [pa0, va0] at h0
    -- the first page is not mapped
    have hl := toNat_pos hlen
    rw [copyinLoop, if_pos hlen, if_pos h0]
    exact ⟨fun h => absurd h0 ((covered_step hl).mp h).1, fun _ => rfl⟩
  | case2 dst d srcva len hlen va0 pa0 h0 n n' ih =>
    simp only [pa0, va0] at h0
    simp only [n', n, pa0, va0, dite_eq_ite] at ih
    have hl := toNat_pos hlen
    rw [copyinLoop, if_pos hlen]
    simp only [if_neg h0]
    simp only [toNat_chunk, toNat_sub_chunk, toNat_next_page h0] at ih ⊢
    rw [covered_step hl]
    refine ⟨fun ⟨_, hrest⟩ => ?_, fun hn => ih.2 fun hrest => hn ⟨h0, hrest⟩⟩
    rw [ih.1 hrest]
    -- the page's bytes, then the rest of the range
    congr 1
    apply Mem.copy_split (Nat.min_le_right _ _)
    · intro k hk
      rw [toNat_pa_off, paOf_of_lt (by omega)]
    · intro k hk
      congr 2
      omega
  | case3 dst d srcva len hlen =>
    have hl := toNat_eq_zero hlen
    rw [copyinLoop, if_neg hlen, hl, Mem.copy_zero]
    exact ⟨fun _ => rfl, fun h => absurd (fun k hk => absurd hk (by omega)) h⟩

/-! ### `copyout` -/

/-- The loop of `copyout(pagetable, dstva, src, len)` once `d` bytes of the kernel buffer `src`
are out: `0`, or `-1` at the first page that is not mapped. -/
def copyoutLoop (s : Phys) (pagetable : UInt64) (src : Nat → UInt8) (d : Nat) (dstva len : UInt64) :
    Int × Phys :=
  if len > 0 then
    let va0 := PGROUNDDOWN dstva
    let pa0 := walkaddr s pagetable va0
    if pa0 = 0 then (-1, s)
    else
      let n := PGSIZE - (dstva - va0)
      let n := if n > len then len else n
      copyoutLoop { s with mem := Mem.copy s.mem (pa0 + (dstva - va0)).toNat n.toNat fun k => src (d + k) }
        pagetable src (d + n.toNat) (va0 + PGSIZE) (len - n)
  else (0, s)
termination_by len.toNat
decreasing_by
  simp only [dite_eq_ite]
  exact toNat_sub_chunk_lt ‹len > 0›

/-- `copyout(pagetable, dstva, src, len)`. -/
def copyout (s : Phys) (pagetable dstva : UInt64) (src : Nat → UInt8) (len : UInt64) : Int × Phys :=
  copyoutLoop s pagetable src 0 dstva len

/-- The physical addresses the mapped part of a range translates to. -/
def Written (s : Phys) (pagetable : UInt64) (va len : Nat) (b : Nat) : Prop :=
  ∃ k < len, UserMapped s pagetable (va + k) ∧ b = paOf s pagetable (va + k)

/-- No byte a copy to the range writes lies in a PTE that `walkaddr` reads for a page of the
range. -/
def NoAlias (s : Phys) (pagetable : UInt64) (va len : Nat) : Prop :=
  ∀ k < len, UserMapped s pagetable (va + k) → ∀ k' < len,
    ∀ q ∈ walkaddrReads s pagetable (pageOf (va + k')), ∀ j < 8, paOf s pagetable (va + k) ≠ q.toNat + j

/-- The addresses of the range translate to distinct physical addresses. -/
def Distinct (s : Phys) (pagetable : UInt64) (va len : Nat) : Prop :=
  ∀ k < len, ∀ k' < len, paOf s pagetable (va + k) = paOf s pagetable (va + k') → k = k'

/-- `s'` holds the PTEs of `s` wherever `walkaddr` reads them for a page of the range. -/
def SameWalks (s s' : Phys) (pagetable : UInt64) (va len : Nat) : Prop :=
  ∀ k < len, AgreeOn s.mem s'.mem (walkaddrReads s pagetable (pageOf (va + k)))

section SameWalks

variable {s s' : Phys} {pagetable : UInt64} {va len k : Nat}

theorem SameWalks.walkaddr_eq (h : SameWalks s s' pagetable va len) (hk : k < len) :
    walkaddr s' pagetable (pageOf (va + k)) = walkaddr s pagetable (pageOf (va + k)) :=
  (walkaddr_congr (h k hk)).1

theorem SameWalks.reads_eq (h : SameWalks s s' pagetable va len) (hk : k < len) :
    walkaddrReads s' pagetable (pageOf (va + k)) = walkaddrReads s pagetable (pageOf (va + k)) :=
  (walkaddr_congr (h k hk)).2

theorem SameWalks.userMapped_iff (h : SameWalks s s' pagetable va len) (hk : k < len) :
    UserMapped s' pagetable (va + k) ↔ UserMapped s pagetable (va + k) := by
  rw [UserMapped, UserMapped, h.walkaddr_eq hk]

theorem SameWalks.paOf_eq (h : SameWalks s s' pagetable va len) (hk : k < len) :
    paOf s' pagetable (va + k) = paOf s pagetable (va + k) := by
  rw [paOf, paOf, h.walkaddr_eq hk]

theorem SameWalks.covered_iff (h : SameWalks s s' pagetable va len) :
    Covered s' pagetable va len ↔ Covered s pagetable va len :=
  forall₂_congr fun _ hk => h.userMapped_iff hk

theorem SameWalks.suffix (h : SameWalks s s' pagetable va len) (c : Nat) :
    SameWalks s s' pagetable (va + c) (len - c) := fun k hk => by
  rw [Nat.add_assoc]
  exact h (c + k) (by omega)

theorem NoAlias.suffix (h : NoAlias s pagetable va len) (c : Nat) : NoAlias s pagetable (va + c) (len - c) := by
  intro k hk hm k' hk'
  rw [Nat.add_assoc] at hm ⊢
  rw [Nat.add_assoc]
  exact h (c + k) (by omega) hm (c + k') (by omega)

theorem NoAlias.transfer (h : NoAlias s pagetable va len) (hw : SameWalks s s' pagetable va len) :
    NoAlias s' pagetable va len := by
  intro k hk hm k' hk' q hq
  rw [hw.userMapped_iff hk] at hm
  rw [hw.reads_eq hk'] at hq
  rw [hw.paOf_eq hk]
  exact h k hk hm k' hk' q hq

theorem Distinct.suffix (h : Distinct s pagetable va len) (c : Nat) : Distinct s pagetable (va + c) (len - c) := by
  intro k hk k' hk' he
  rw [Nat.add_assoc, Nat.add_assoc] at he
  have := h (c + k) (by omega) (c + k') (by omega) he
  omega

theorem Distinct.transfer (h : Distinct s pagetable va len) (hw : SameWalks s s' pagetable va len) :
    Distinct s' pagetable va len := by
  intro k hk k' hk' he
  rw [hw.paOf_eq hk, hw.paOf_eq hk'] at he
  exact h k hk k' hk' he

theorem Written.suffix {c b : Nat} (h : Written s pagetable (va + c) (len - c) b) : Written s pagetable va len b := by
  obtain ⟨k, hk, hm, he⟩ := h
  rw [Nat.add_assoc] at hm he
  exact ⟨c + k, by omega, hm, he⟩

theorem SameWalks.written_iff {b : Nat} (hw : SameWalks s s' pagetable va len) :
    Written s' pagetable va len b ↔ Written s pagetable va len b := by
  constructor
  · rintro ⟨k, hk, hm, he⟩
    exact ⟨k, hk, (hw.userMapped_iff hk).mp hm, he.trans (hw.paOf_eq hk)⟩
  · rintro ⟨k, hk, hm, he⟩
    exact ⟨k, hk, (hw.userMapped_iff hk).mpr hm, he.trans (hw.paOf_eq hk).symm⟩

/-- A memory that differs only where a copy to an unaliased range writes keeps its walks. -/
theorem sameWalks_of_frame (h : NoAlias s pagetable va len) (hf : Mem.Frame s.mem s'.mem (Written s pagetable va len)) :
    SameWalks s s' pagetable va len := by
  intro k' hk' q hq j hj
  apply hf
  rintro ⟨k, hk, hm, he⟩
  exact h k hk hm k' hk' q hq j hj he.symm

end SameWalks

/-- The loop writes the source's bytes at the addresses of the range when it is covered, and
fails otherwise; it writes nothing else, and keeps the range's walks. -/
theorem copyoutLoop_spec (pagetable : UInt64) (src : Nat → UInt8) (s : Phys) (d : Nat) (dstva len : UInt64)
    (ha : NoAlias s pagetable dstva.toNat len.toNat) :
    (Covered s pagetable dstva.toNat len.toNat → (copyoutLoop s pagetable src d dstva len).1 = 0) ∧
    (¬ Covered s pagetable dstva.toNat len.toNat → (copyoutLoop s pagetable src d dstva len).1 = -1) ∧
    (copyoutLoop s pagetable src d dstva len).2 = { s with mem := (copyoutLoop s pagetable src d dstva len).2.mem } ∧
    Mem.Frame s.mem (copyoutLoop s pagetable src d dstva len).2.mem (Written s pagetable dstva.toNat len.toNat) ∧
    (Covered s pagetable dstva.toNat len.toNat → Distinct s pagetable dstva.toNat len.toNat →
      ∀ k < len.toNat, (copyoutLoop s pagetable src d dstva len).2.mem (paOf s pagetable (dstva.toNat + k)) = src (d + k)) := by
  induction s, d, dstva, len using copyoutLoop.induct pagetable src with
  | case1 s d dstva len hlen va0 pa0 h0 =>
    simp only [pa0, va0] at h0
    have hl := toNat_pos hlen
    rw [copyoutLoop, if_pos hlen, if_pos h0]
    exact ⟨fun h => absurd h0 ((covered_step hl).mp h).1, fun _ => rfl, rfl, Mem.Frame.refl _ _,
      fun h => absurd h0 ((covered_step hl).mp h).1⟩
  | case2 s d dstva len hlen va0 pa0 h0 n n' ih =>
    simp only [pa0, va0] at h0
    simp only [n', n, pa0, va0, dite_eq_ite] at ih
    have hl := toNat_pos hlen
    rw [copyoutLoop, if_pos hlen]
    simp only [if_neg h0]
    simp only [toNat_chunk, toNat_sub_chunk, toNat_next_page h0, toNat_pa_off] at ih ⊢
    set c := min (4096 - dstva.toNat % 4096) len.toNat with hc
    set P := (walkaddr s pagetable (PGROUNDDOWN dstva)).toNat + dstva.toNat % 4096 with hP
    -- the first page's bytes go to `P .. P + c`, which no walk of the range reads
    have hpa : ∀ k < c, paOf s pagetable (dstva.toNat + k) = P + k := fun k hk => paOf_of_lt (by omega)
    have hf1 : Mem.Frame s.mem (Mem.copy s.mem P c fun k => src (d + k)) (Written s pagetable dstva.toNat len.toNat) :=
      (Mem.frame_copy _ _ _ _).mono fun b hb =>
        ⟨b - P, by omega, userMapped_of_lt h0 (by omega), by rw [hpa _ (by omega)]; omega⟩
    have hw : SameWalks s { s with mem := Mem.copy s.mem P c fun k => src (d + k) } pagetable
        dstva.toNat len.toNat := sameWalks_of_frame ha hf1
    have hsrc : ∀ k < c, Mem.copy s.mem P c (fun k => src (d + k)) (P + k) = src (d + k) := fun k hk => by
      rw [Mem.copy_of_mem (by omega) (by omega), Nat.add_sub_cancel_left]
    by_cases hlast : len.toNat ≤ 4096 - dstva.toNat % 4096
    · -- the last page: the rest of the loop does nothing
      have hz : len.toNat - c = 0 := by omega
      rw [hz] at ih
      obtain ⟨ih1, -, ih3, ih4, -⟩ := ih fun k hk => absurd hk (by omega)
      have hr : (copyoutLoop { s with mem := Mem.copy s.mem P c fun k => src (d + k) } pagetable src (d + c)
          (PGROUNDDOWN dstva + PGSIZE)
          (len - if PGSIZE - (dstva - PGROUNDDOWN dstva) > len then len else PGSIZE - (dstva - PGROUNDDOWN dstva))).2.mem =
          Mem.copy s.mem P c fun k => src (d + k) :=
        funext fun b => ih4 b fun ⟨k, hk, _⟩ => absurd hk (by omega)
      refine ⟨fun _ => ih1 fun k hk => absurd hk (by omega),
        fun hn => absurd ((covered_step hl).mpr ⟨h0, fun k hk => absurd hk (by omega)⟩) hn, by rw [ih3], ?_, ?_⟩
      · rw [hr]
        exact hf1
      · intro _ _ k hk
        rw [hr, hpa k (by omega), hsrc k (by omega)]
    · -- the page is written whole and the loop goes on at the next one, `c` bytes on
      have hnxt : dstva.toNat / 4096 * 4096 + 4096 = dstva.toNat + c := by omega
      rw [hnxt] at ih
      rw [covered_step hl, hnxt]
      obtain ⟨ih1, ih2, ih3, ih4, ih5⟩ := ih ((ha.suffix c).transfer (hw.suffix c))
      have hcov := (hw.suffix c).covered_iff
      refine ⟨fun ⟨_, hrest⟩ => ih1 (hcov.mpr hrest), fun hn => ih2 fun h => hn ⟨h0, hcov.mp h⟩, by rw [ih3],
        (hf1.trans ih4).mono fun b hb => hb.elim id fun hb => ((hw.suffix c).written_iff.mp hb).suffix, ?_⟩
      rintro ⟨_, hrest⟩ hd k hk
      by_cases hkc : k < c
      · -- a byte of the first page: no later page writes its address
        have hnot : ¬ Written { s with mem := Mem.copy s.mem P c fun k => src (d + k) } pagetable
            (dstva.toNat + c) (len.toNat - c) (paOf s pagetable (dstva.toNat + k)) := by
          rintro ⟨k', hk', -, he⟩
          rw [(hw.suffix c).paOf_eq hk', Nat.add_assoc] at he
          have := hd k hk (c + k') (by omega) he
          omega
        rw [ih4 _ hnot, hpa k hkc, hsrc k hkc]
      · have := ih5 (hcov.mpr hrest) ((hd.suffix c).transfer (hw.suffix c)) (k - c) (by omega)
        rwa [(hw.suffix c).paOf_eq (by omega), show dstva.toNat + c + (k - c) = dstva.toNat + k by omega,
          show d + c + (k - c) = d + k by omega] at this
  | case3 s d dstva len hlen =>
    have hl := toNat_eq_zero hlen
    rw [copyoutLoop, if_neg hlen, hl]
    exact ⟨fun _ => rfl, fun h => absurd (fun k hk => absurd hk (by omega)) h, rfl, Mem.Frame.refl _ _,
      fun _ _ k hk => absurd hk (by omega)⟩

instance (s : Phys) (pagetable : UInt64) (va len : Nat) : Decidable (Distinct s pagetable va len) :=
  inferInstanceAs (Decidable (∀ k < len, ∀ k' < len, _))

-- one bound at a time: the whole statement at once is beyond the default instance search size,
-- and the bound over the PTEs read is the list's, not one over all of `UInt64`
instance (s : Phys) (pagetable : UInt64) (va len : Nat) : Decidable (NoAlias s pagetable va len) :=
  @Nat.decidableBallLT len _ fun _ _ =>
    @instDecidableForall _ _ inferInstance <| @Nat.decidableBallLT len _ fun k' _ =>
      List.decidableBAll _ (walkaddrReads s pagetable (pageOf (va + k')))

/-- The page table at `0x1000` whose tables at `0x2000` and `0x3000` lead the page at `0` to the
leaf `leaf`. -/
def tableWithLeaf (leaf : UInt64) : Phys :=
  ⟨stPte (stPte (stPte (fun _ => 0) 0x1000 (PA2PTE 0x2000 ||| PTE_V)) 0x2000 (PA2PTE 0x3000 ||| PTE_V)) 0x3000 leaf,
    [], 0⟩

/-- `copyin` succeeds just when every address of the range lies on a mapped user page, and then
reads the bytes the range translates to.  When no byte a copy to the range writes lies in a PTE
that `walkaddr` reads for the range, `copyout` succeeds under the same condition, writes only the
translated addresses and keeps every translation of the range; when those addresses are distinct
they then hold `src`, and `copyin` of the range reads `src` back. -/
theorem copyin_copyout_translate (s : Phys) (pagetable va len : UInt64) (dst src : Nat → UInt8) :
    ((copyin s pagetable dst va len).1 = 0 ↔ Covered s pagetable va.toNat len.toNat) ∧
    ((copyin s pagetable dst va len).1 = 0 ∨ (copyin s pagetable dst va len).1 = -1) ∧
    (Covered s pagetable va.toNat len.toNat →
      ∀ k < len.toNat, (copyin s pagetable dst va len).2 k = s.mem (paOf s pagetable (va.toNat + k))) ∧
    (NoAlias s pagetable va.toNat len.toNat →
      ((copyout s pagetable va src len).1 = 0 ↔ Covered s pagetable va.toNat len.toNat) ∧
      ((copyout s pagetable va src len).1 = 0 ∨ (copyout s pagetable va src len).1 = -1) ∧
      Mem.Frame s.mem (copyout s pagetable va src len).2.mem (Written s pagetable va.toNat len.toNat) ∧
      (∀ k < len.toNat, paOf (copyout s pagetable va src len).2 pagetable (va.toNat + k) = paOf s pagetable (va.toNat + k)) ∧
      (Covered s pagetable va.toNat len.toNat → Distinct s pagetable va.toNat len.toNat →
        (∀ k < len.toNat, (copyout s pagetable va src len).2.mem (paOf s pagetable (va.toNat + k)) = src k) ∧
        copyin (copyout s pagetable va src len).2 pagetable dst va len = (0, Mem.copy dst 0 len.toNat src))) := by
  have hin := copyinLoop_spec s pagetable dst 0 va len
  have hcopy : Covered s pagetable va.toNat len.toNat → (copyin s pagetable dst va len).1 = 0 := fun h => by
    rw [copyin, hin.1 h]
  refine ⟨⟨fun h0 => ?_, hcopy⟩, ?_, fun hc k hk => ?_, fun ha => ?_⟩
  · by_contra hc
    have := hin.2 hc
    rw [copyin] at h0
    omega
  · by_cases hc : Covered s pagetable va.toNat len.toNat
    · exact .inl (hcopy hc)
    · exact .inr (hin.2 hc)
  · rw [copyin, hin.1 hc]
    dsimp only
    rw [Mem.copy_of_mem (Nat.zero_le k) (show k < 0 + len.toNat by omega), Nat.sub_zero]
  unfold copyout
  obtain ⟨hout1, hout2, -, hframe, hbytes⟩ := copyoutLoop_spec pagetable src s 0 va len ha
  have hbytes' : Covered s pagetable va.toNat len.toNat → Distinct s pagetable va.toNat len.toNat →
      ∀ k < len.toNat, (copyoutLoop s pagetable src 0 va len).2.mem (paOf s pagetable (va.toNat + k)) = src k :=
    fun hc hd k hk => by simpa using hbytes hc hd k hk
  -- the copy keeps every walk of the range
  have hw := sameWalks_of_frame ha hframe
  refine ⟨⟨fun h0 => ?_, hout1⟩, ?_, hframe, fun k hk => hw.paOf_eq hk, fun hc hd => ⟨hbytes' hc hd, ?_⟩⟩
  · by_contra hc
    have := hout2 hc
    omega
  · by_cases hc : Covered s pagetable va.toNat len.toNat
    · exact .inl (hout1 hc)
    · exact .inr (hout2 hc)
  · rw [copyin, (copyinLoop_spec _ pagetable dst 0 va len).1 (hw.covered_iff.mpr hc)]
    congr 1
    apply Mem.copy_congr
    intro k hk
    rw [hw.paOf_eq hk]
    exact hbytes' hc hd k hk

/-- A user page `0` mapped to `0x4000`: a copy of its first eight bytes writes no PTE, covers
mapped pages and writes eight distinct bytes, so `copyout` succeeds and `copyin` reads `src` back. -/
theorem copyin_copyout_translate_user :
    NoAlias (tableWithLeaf (PA2PTE 0x4000 ||| PTE_V ||| PTE_R ||| PTE_W ||| PTE_U)) 0x1000 0 8 ∧
    Covered (tableWithLeaf (PA2PTE 0x4000 ||| PTE_V ||| PTE_R ||| PTE_W ||| PTE_U)) 0x1000 0 8 ∧
    Distinct (tableWithLeaf (PA2PTE 0x4000 ||| PTE_V ||| PTE_R ||| PTE_W ||| PTE_U)) 0x1000 0 8 ∧
    (copyout (tableWithLeaf (PA2PTE 0x4000 ||| PTE_V ||| PTE_R ||| PTE_W ||| PTE_U)) 0x1000 0
      (fun k => k.toUInt8) 8).1 = 0 ∧
    copyin (copyout (tableWithLeaf (PA2PTE 0x4000 ||| PTE_V ||| PTE_R ||| PTE_W ||| PTE_U)) 0x1000 0
      (fun k => k.toUInt8) 8).2 0x1000 (fun _ => 0) 0 8 = (0, Mem.copy (fun _ => 0) 0 8 fun k => k.toUInt8) := by
  have hna : NoAlias (tableWithLeaf (PA2PTE 0x4000 ||| PTE_V ||| PTE_R ||| PTE_W ||| PTE_U)) 0x1000 0 8 := by
    decide
  have hc : Covered (tableWithLeaf (PA2PTE 0x4000 ||| PTE_V ||| PTE_R ||| PTE_W ||| PTE_U)) 0x1000 0 8 := by
    decide
  have hd : Distinct (tableWithLeaf (PA2PTE 0x4000 ||| PTE_V ||| PTE_R ||| PTE_W ||| PTE_U)) 0x1000 0 8 := by
    decide
  have h := (copyin_copyout_translate (tableWithLeaf (PA2PTE 0x4000 ||| PTE_V ||| PTE_R ||| PTE_W ||| PTE_U))
    0x1000 0 8 (fun _ => 0) (fun k => k.toUInt8)).2.2.2 hna
  exact ⟨hna, hc, hd, h.1.mpr hc, (h.2.2.2.2 hc hd).2⟩

/-- A copy that fits in the rest of a mapped page is one `memmove` into it. -/
theorem copyoutLoop_last {s : Phys} {pagetable : UInt64} {src : Nat → UInt8} {d : Nat} {dstva len : UInt64}
    (hlen : len > 0) (hlast : len.toNat ≤ 4096 - dstva.toNat % 4096) (h0 : walkaddr s pagetable (PGROUNDDOWN dstva) ≠ 0) :
    copyoutLoop s pagetable src d dstva len =
      (0, { s with
        mem := Mem.copy s.mem ((walkaddr s pagetable (PGROUNDDOWN dstva)).toNat + dstva.toNat % 4096) len.toNat
          fun k => src (d + k) }) := by
  have hc := toNat_chunk dstva len
  have hz : (len - if PGSIZE - (dstva - PGROUNDDOWN dstva) > len then len else PGSIZE - (dstva - PGROUNDDOWN dstva)) = 0 := by
    apply UInt64.toNat_inj.mp
    rw [toNat_sub_chunk, UInt64.toNat_zero]
    omega
  rw [copyoutLoop, if_pos hlen]
  simp only [if_neg h0]
  rw [hz, copyoutLoop, if_neg (by decide), hc, toNat_pa_off, Nat.min_eq_right hlast]

/-- Two page tables on which a copy to a mapped user page is not read back.  A valid user leaf
of physical page `0` is a mapping `walkaddr` does not see: `copyin` from it fails.  A user page
mapped onto its own level-0 page-table page: the eight bytes of a `copyout` to it are distinct,
yet they overwrite its leaf, and a `copyin` of the same range then fails. -/
theorem copyin_copyout_diverge :
    ((walkFrom 0 false 2 0x1000 (tableWithLeaf (PA2PTE 0 ||| PTE_V ||| PTE_R ||| PTE_W ||| PTE_U))).1 = 0x3000 ∧
      ldPte (tableWithLeaf (PA2PTE 0 ||| PTE_V ||| PTE_R ||| PTE_W ||| PTE_U)).mem 0x3000 &&& PTE_V ≠ 0 ∧
      ldPte (tableWithLeaf (PA2PTE 0 ||| PTE_V ||| PTE_R ||| PTE_W ||| PTE_U)).mem 0x3000 &&& PTE_U ≠ 0 ∧
      (copyin (tableWithLeaf (PA2PTE 0 ||| PTE_V ||| PTE_R ||| PTE_W ||| PTE_U)) 0x1000 (fun _ => 0) 0 1).1 = -1) ∧
    (Distinct (tableWithLeaf (PA2PTE 0x3000 ||| PTE_V ||| PTE_R ||| PTE_W ||| PTE_U)) 0x1000 0 8 ∧
      (copyout (tableWithLeaf (PA2PTE 0x3000 ||| PTE_V ||| PTE_R ||| PTE_W ||| PTE_U)) 0x1000 0 (fun _ => 0) 8).1 = 0 ∧
      (copyin (copyout (tableWithLeaf (PA2PTE 0x3000 ||| PTE_V ||| PTE_R ||| PTE_W ||| PTE_U)) 0x1000 0
        (fun _ => 0) 8).2 0x1000 (fun _ => 0) 0 8).1 = -1) := by
  constructor
  · have h0 : walkaddr (tableWithLeaf (PA2PTE 0 ||| PTE_V ||| PTE_R ||| PTE_W ||| PTE_U)) 0x1000 (PGROUNDDOWN 0) = 0 := by
      decide
    refine ⟨by decide, by decide, by decide, ?_⟩
    rw [copyin, copyinLoop, if_pos (by decide), if_pos h0]
  · have h0 : walkaddr (tableWithLeaf (PA2PTE 0x3000 ||| PTE_V ||| PTE_R ||| PTE_W ||| PTE_U)) 0x1000
        (PGROUNDDOWN 0) ≠ 0 := by
      decide
    have hout := @copyoutLoop_last _ 0x1000 (fun _ => 0) 0 0 8 (by decide) (by decide) h0
    refine ⟨by decide, by rw [copyout, hout], ?_⟩
    rw [copyout, hout]
    -- the leaf now reads `0`
    have h0' : walkaddr { tableWithLeaf (PA2PTE 0x3000 ||| PTE_V ||| PTE_R ||| PTE_W ||| PTE_U) with
        mem := Mem.copy (tableWithLeaf (PA2PTE 0x3000 ||| PTE_V ||| PTE_R ||| PTE_W ||| PTE_U)).mem
          ((walkaddr (tableWithLeaf (PA2PTE 0x3000 ||| PTE_V ||| PTE_R ||| PTE_W ||| PTE_U)) 0x1000
            (PGROUNDDOWN 0)).toNat + (0 : UInt64).toNat % 4096) (8 : UInt64).toNat fun k => (fun _ => 0) (0 + k) }
        0x1000 (PGROUNDDOWN 0) = 0 := by
      decide
    rw [copyin, copyinLoop, if_pos (by decide), if_pos h0']

/-! ### `copyinstr` -/

/-- The inner loop of `copyinstr` over `n` bytes from the physical address `p`, the kernel buffer
written at `d`: it stops at a NUL, which it copies.  `got_null`, the buffer, where `dst` points,
and `max` after it. -/
def copyinstrInner (mem : Nat → UInt8) : Nat → Nat → (Nat → UInt8) → Nat → UInt64 →
    Bool × (Nat → UInt8) × Nat × UInt64
  | 0, _, dst, d, max => (false, dst, d, max)
  | n + 1, p, dst, d, max =>
    if mem p = 0 then (true, Function.update dst d 0, d, max)
    else copyinstrInner mem n (p + 1) (Function.update dst d (mem p)) (d + 1) (max - 1)

section Inner

variable (mem : Nat → UInt8)

theorem toNat_sub_one {max : UInt64} (h : 1 ≤ max.toNat) : (max - 1).toNat = max.toNat - 1 := by
  rw [UInt64.toNat_sub_of_le _ _ (UInt64.le_iff_toNat_le.mpr (by simpa using h))]
  rfl

/-- Each byte the inner loop passes over takes one off `max`. -/
theorem copyinstrInner_measure : ∀ (n p : Nat) (dst : Nat → UInt8) (d : Nat) (max : UInt64), n ≤ max.toNat →
    (copyinstrInner mem n p dst d max).2.2.2.toNat + (if (copyinstrInner mem n p dst d max).1 then 0 else n) ≤
      max.toNat
  | 0, _, _, _, _, _ => by simp [copyinstrInner]
  | n + 1, p, dst, d, max, hn => by
    rw [copyinstrInner]
    by_cases h0 : mem p = 0
    · simp [h0]
    · have hm := @toNat_sub_one max (by omega)
      have := copyinstrInner_measure n (p + 1) (Function.update dst d (mem p)) (d + 1) (max - 1) (by omega)
      simp only [if_neg h0]
      split_ifs at this ⊢ <;> omega

/-- A pass of the outer loop over at least one byte takes `max` down or sets `got_null`. -/
theorem copyinstrInner_decreasing (n p : Nat) (dst : Nat → UInt8) (d : Nat) (max : UInt64) (hn1 : 1 ≤ n)
    (hn : n ≤ max.toNat) :
    (copyinstrInner mem n p dst d max).2.2.2.toNat + (if (copyinstrInner mem n p dst d max).1 then 0 else 1) <
      max.toNat + 1 := by
  have := copyinstrInner_measure mem n p dst d max hn
  split_ifs at this ⊢ <;> omega

theorem toNat_sub_ofNat {max : UInt64} {n : Nat} (h : n ≤ max.toNat) : (max - UInt64.ofNat n).toNat = max.toNat - n := by
  have := max.toNat_lt
  rw [UInt64.toNat_sub_of_le _ _ (UInt64.le_iff_toNat_le.mpr (by rw [UInt64.toNat_ofNat']; omega)),
    UInt64.toNat_ofNat', Nat.mod_eq_of_lt (by omega)]

theorem sub_one_sub_ofNat {max : UInt64} {n : Nat} (h : n + 1 ≤ max.toNat) :
    max - 1 - UInt64.ofNat n = max - UInt64.ofNat (1 + n) := by
  apply UInt64.toNat_inj.mp
  rw [toNat_sub_ofNat (by rw [toNat_sub_one (by omega)]; omega), toNat_sub_one (by omega), toNat_sub_ofNat (by omega)]
  omega

/-- Over bytes none of which is NUL, the inner loop copies them all. -/
theorem copyinstrInner_of_ne : ∀ (n p : Nat) (dst : Nat → UInt8) (d : Nat) (max : UInt64), n ≤ max.toNat →
    (∀ i < n, mem (p + i) ≠ 0) →
    copyinstrInner mem n p dst d max = (false, Mem.copy dst d n (fun i => mem (p + i)), d + n, max - UInt64.ofNat n)
  | 0, _, _, _, _, _, _ => by simp [copyinstrInner]
  | n + 1, p, dst, d, max, hn, h => by
    have h0 : mem p ≠ 0 := h 0 (by omega)
    rw [copyinstrInner, if_neg h0,
      copyinstrInner_of_ne n (p + 1) _ (d + 1) (max - 1) (by rw [toNat_sub_one (by omega)]; omega)
        fun i hi => by rw [Nat.add_assoc]; exact h (1 + i) (by omega)]
    have hc : Mem.copy (Function.update dst d (mem p)) (d + 1) n (fun i => mem (p + 1 + i)) =
        Mem.copy dst d (n + 1) fun i => mem (p + i) := by
      rw [Nat.add_comm n 1, ← Mem.copy_succ]
      simp only [Nat.add_zero, Nat.add_assoc]
    rw [hc, sub_one_sub_ofNat hn, Nat.add_comm 1 n, Nat.add_assoc, Nat.add_comm 1 n]

/-- At the first NUL the inner loop stops, having copied the bytes up to it and the NUL. -/
theorem copyinstrInner_of_nul : ∀ (n p : Nat) (dst : Nat → UInt8) (d : Nat) (max : UInt64) (j : Nat), j < n →
    n ≤ max.toNat → (∀ i < j, mem (p + i) ≠ 0) → mem (p + j) = 0 →
    copyinstrInner mem n p dst d max = (true, Mem.copy dst d (j + 1) (fun i => mem (p + i)), d + j, max - UInt64.ofNat j)
  | 0, _, _, _, _, _, hj, _, _, _ => absurd hj (by omega)
  | n + 1, p, dst, d, max, 0, _, _, _, hz => by
    rw [Nat.add_zero] at hz
    rw [copyinstrInner, if_pos hz]
    simp [Mem.copy_one, hz]
  | n + 1, p, dst, d, max, j + 1, hj, hn, h, hz => by
    have h0 : mem p ≠ 0 := h 0 (by omega)
    rw [copyinstrInner, if_neg h0,
      copyinstrInner_of_nul n (p + 1) _ (d + 1) (max - 1) j (by omega) (by rw [toNat_sub_one (by omega)]; omega)
        (fun i hi => by rw [Nat.add_assoc]; exact h (1 + i) (by omega)) (by rw [Nat.add_assoc, Nat.add_comm 1 j]; exact hz)]
    have hc : Mem.copy (Function.update dst d (mem p)) (d + 1) (j + 1) (fun i => mem (p + 1 + i)) =
        Mem.copy dst d (j + 1 + 1) fun i => mem (p + i) := by
      rw [Nat.add_comm (j + 1) 1, ← Mem.copy_succ]
      simp only [Nat.add_zero, Nat.add_assoc]
    rw [hc, sub_one_sub_ofNat (by omega), Nat.add_comm 1 j, show d + 1 + j = d + (j + 1) by omega]

end Inner

/-- The loop of `copyinstr(pagetable, dst, srcva, max)` once `d` bytes are in the kernel buffer:
`0` once a NUL is copied, `-1` at a page that is not mapped or when `max` runs out first. -/
def copyinstrLoop (s : Phys) (pagetable : UInt64) (dst : Nat → UInt8) (d : Nat) (srcva max : UInt64)
    (got_null : Bool) : Int × (Nat → UInt8) :=
  if got_null = false ∧ max > 0 then
    let va0 := PGROUNDDOWN srcva
    let pa0 := walkaddr s pagetable va0
    if pa0 = 0 then (-1, dst)
    else
      let n := PGSIZE - (srcva - va0)
      let n := if n > max then max else n
      let r := copyinstrInner s.mem n.toNat (pa0 + (srcva - va0)).toNat dst d max
      copyinstrLoop s pagetable r.2.1 r.2.2.1 (va0 + PGSIZE) r.2.2.2 r.1
  else if got_null then (0, dst) else (-1, dst)
termination_by max.toNat + if got_null then 0 else 1
decreasing_by
  obtain ⟨rfl, hmax⟩ := ‹got_null = false ∧ max > 0›
  simp only [dite_eq_ite, Bool.false_eq_true, if_false]
  have hc := toNat_chunk srcva max
  have := toNat_pos hmax
  exact copyinstrInner_decreasing _ _ _ _ _ _ (by rw [hc]; omega) (by rw [hc]; omega)

/-- `copyinstr(pagetable, dst, srcva, max)`. -/
def copyinstr (s : Phys) (pagetable : UInt64) (dst : Nat → UInt8) (srcva max : UInt64) : Int × (Nat → UInt8) :=
  copyinstrLoop s pagetable dst 0 srcva max false

theorem copyinstrLoop_true (s : Phys) (pagetable : UInt64) (dst : Nat → UInt8) (d : Nat) (srcva max : UInt64) :
    copyinstrLoop s pagetable dst d srcva max true = (0, dst) := by
  rw [copyinstrLoop]
  simp

/-- The string at `va` ends at `k`: the addresses `va .. va + k` lie on mapped user pages, the
byte at `va + k` is NUL and no byte before it is. -/
def StrAt (s : Phys) (pagetable : UInt64) (va k : Nat) : Prop :=
  (∀ j ≤ k, UserMapped s pagetable (va + j)) ∧ s.mem (paOf s pagetable (va + k)) = 0 ∧
    ∀ j < k, s.mem (paOf s pagetable (va + j)) ≠ 0

section StrAt

variable {s : Phys} {pagetable : UInt64} {va k k' : Nat}

theorem StrAt.unique (h : StrAt s pagetable va k) (h' : StrAt s pagetable va k') : k = k' := by
  rcases Nat.lt_trichotomy k k' with hlt | heq | hgt
  · exact absurd h.2.1 (h'.2.2 k hlt)
  · exact heq
  · exact absurd h'.2.1 (h.2.2 k' hgt)

/-- Past `c` mapped bytes none of which is NUL, the string goes on from `va + c`. -/
theorem strAt_shift {c : Nat} (hm : ∀ j < c, UserMapped s pagetable (va + j))
    (hz : ∀ j < c, s.mem (paOf s pagetable (va + j)) ≠ 0) :
    StrAt s pagetable va k ↔ c ≤ k ∧ StrAt s pagetable (va + c) (k - c) := by
  constructor
  · rintro ⟨hu, h0, hne⟩
    have hck : c ≤ k := Nat.le_of_not_lt fun hk => hz k hk h0
    refine ⟨hck, fun j hj => ?_, ?_, fun j hj => ?_⟩
    · rw [Nat.add_assoc]
      exact hu (c + j) (by omega)
    · rwa [Nat.add_assoc, Nat.add_sub_cancel' hck]
    · rw [Nat.add_assoc]
      exact hne (c + j) (by omega)
  · rintro ⟨hck, hu, h0, hne⟩
    refine ⟨fun j hj => ?_, ?_, fun j hj => ?_⟩
    · by_cases hjc : j < c
      · exact hm j hjc
      · have := hu (j - c) (by omega)
        rwa [Nat.add_assoc, Nat.add_sub_cancel' (by omega)] at this
    · rwa [Nat.add_assoc, Nat.add_sub_cancel' hck] at h0
    · by_cases hjc : j < c
      · exact hz j hjc
      · have := hne (j - c) (by omega)
        rwa [Nat.add_assoc, Nat.add_sub_cancel' (by omega)] at this

end StrAt

/-- The loop finds the string at `srcva` when it ends within `max` bytes, copying it with its NUL,
and fails otherwise; it writes the buffer only within `max` bytes of `d`. -/
theorem copyinstrLoop_spec (s : Phys) (pagetable : UInt64) (dst : Nat → UInt8) (d : Nat) (srcva max : UInt64)
    (got_null : Bool) (hg : got_null = false) :
    ((copyinstrLoop s pagetable dst d srcva max got_null).1 = 0 ↔ ∃ k < max.toNat, StrAt s pagetable srcva.toNat k) ∧
    (∀ k < max.toNat, StrAt s pagetable srcva.toNat k → (copyinstrLoop s pagetable dst d srcva max got_null).2 =
      Mem.copy dst d (k + 1) fun j => s.mem (paOf s pagetable (srcva.toNat + j))) ∧
    ((copyinstrLoop s pagetable dst d srcva max got_null).1 = 0 ∨
      (copyinstrLoop s pagetable dst d srcva max got_null).1 = -1) ∧
    Mem.Frame dst (copyinstrLoop s pagetable dst d srcva max got_null).2 fun b => d ≤ b ∧ b < d + max.toNat := by
  induction dst, d, srcva, max, got_null using copyinstrLoop.induct s pagetable with
  | case1 dst d srcva max got hc va0 pa0 h0 =>
    simp only [pa0, va0] at h0
    rw [copyinstrLoop, if_pos hc, if_pos h0]
    -- the page of the string's first byte is not mapped
    have hno : ¬ ∃ k < max.toNat, StrAt s pagetable srcva.toNat k := fun ⟨k, _, hu, _⟩ => by
      have := (hu 0 (Nat.zero_le _)).2
      rw [Nat.add_zero, pageOf_toNat] at this
      exact this h0
    exact ⟨⟨fun h => absurd h (by simp), fun h => absurd h hno⟩, fun k hk hs => absurd ⟨k, hk, hs⟩ hno,
      .inr rfl, Mem.Frame.refl _ _⟩
  | case2 dst d srcva max got hc va0 pa0 h0 n n' r ih =>
    subst hg
    simp only [pa0, va0] at h0
    simp only [r, n', n, pa0, va0, dite_eq_ite] at ih
    have hmax := toNat_pos hc.2
    rw [copyinstrLoop, if_pos hc]
    simp only [if_neg h0]
    have hck := toNat_chunk srcva max
    generalize (if PGSIZE - (srcva - PGROUNDDOWN srcva) > max then max else PGSIZE - (srcva - PGROUNDDOWN srcva)) = cu
      at hck ih ⊢
    rw [toNat_pa_off] at ih ⊢
    -- `c` bytes of the page, from the physical address `P`
    set c := cu.toNat with hcu
    set P := (walkaddr s pagetable (PGROUNDDOWN srcva)).toNat + srcva.toNat % 4096 with hP
    have hc1 : c ≤ max.toNat := by omega
    have hc2 : c ≤ 4096 - srcva.toNat % 4096 := by omega
    have hc3 : c = max.toNat ∨ c = 4096 - srcva.toNat % 4096 := by omega
    clear hck
    have hpa : ∀ j < c, paOf s pagetable (srcva.toNat + j) = P + j := fun j hj => paOf_of_lt (by omega)
    have hum : ∀ j < c, UserMapped s pagetable (srcva.toNat + j) := fun j hj => userMapped_of_lt h0 (by omega)
    by_cases hz : ∃ j, j < c ∧ s.mem (P + j) = 0
    · -- the first NUL is on this page: the loop stops after copying it
      obtain ⟨j, ⟨hj, hj0⟩, hmin⟩ : ∃ j, (j < c ∧ s.mem (P + j) = 0) ∧ ∀ i < j, ¬ (i < c ∧ s.mem (P + i) = 0) :=
        ⟨Nat.find hz, Nat.find_spec hz, fun i hi => Nat.find_min hz hi⟩
      have hne : ∀ i < j, s.mem (P + i) ≠ 0 := fun i hi h => hmin i hi ⟨by omega, h⟩
      have hstr : StrAt s pagetable srcva.toNat j :=
        ⟨fun i hi => hum i (by omega), by rw [hpa j hj]; exact hj0,
          fun i hi => by rw [hpa i (by omega)]; exact hne i hi⟩
      rw [copyinstrInner_of_nul s.mem c P dst d max j hj (by omega) hne hj0]
      dsimp only
      rw [copyinstrLoop_true]
      dsimp only
      refine ⟨⟨fun _ => ⟨j, by omega, hstr⟩, fun _ => rfl⟩, fun k _ hk => ?_, .inl rfl,
        (Mem.frame_copy _ _ _ _).mono fun b hb => by omega⟩
      rw [← hstr.unique hk]
      exact Mem.copy_congr fun i hi => by rw [hpa i (by omega)]
    · -- no NUL on this page: all of it is copied and the loop goes on
      have hz' : ∀ j < c, s.mem (P + j) ≠ 0 := fun j hj h => hz ⟨j, hj, h⟩
      have hnz : ∀ j < c, s.mem (paOf s pagetable (srcva.toNat + j)) ≠ 0 := fun j hj => by
        rw [hpa j hj]
        exact hz' j hj
      rw [copyinstrInner_of_ne s.mem c P dst d max (by omega) hz'] at ih ⊢
      dsimp only at ih ⊢
      rw [toNat_sub_ofNat (by omega), toNat_next_page h0] at ih
      obtain ⟨ih1, ih2, ih3, ih4⟩ := ih rfl
      have hframe := (Mem.frame_copy dst d c fun i => s.mem (P + i)).trans ih4
      by_cases hlast : max.toNat ≤ 4096 - srcva.toNat % 4096
      · -- the page holds the last of `max`: no string ends in it
        have hno : ¬ ∃ k < max.toNat, StrAt s pagetable srcva.toNat k :=
          fun ⟨k, hk, hs⟩ => hnz k (by omega) hs.2.1
        refine ⟨⟨fun h => absurd (ih1.mp h) fun ⟨k, hk, _⟩ => by omega, fun h => absurd h hno⟩,
          fun k hk hs => absurd ⟨k, hk, hs⟩ hno, ih3, hframe.mono fun b hb => by omega⟩
      · have hnxt : srcva.toNat / 4096 * 4096 + 4096 = srcva.toNat + c := by
          -- `omega` would split the iff `ih1`
          clear ih1
          omega
        rw [hnxt] at ih1 ih2
        have hsh := fun k => @strAt_shift s pagetable srcva.toNat k c hum hnz
        refine ⟨ih1.trans ⟨?_, ?_⟩, fun k hk hs => ?_, ih3, hframe.mono fun b hb => by omega⟩
        · rintro ⟨k, hk, hs⟩
          exact ⟨c + k, by omega, (hsh _).mpr ⟨by omega, by simpa using hs⟩⟩
        · rintro ⟨k, hk, hs⟩
          obtain ⟨hck, hs'⟩ := (hsh k).mp hs
          exact ⟨k - c, by omega, hs'⟩
        obtain ⟨hck, hs'⟩ := (hsh k).mp hs
        rw [ih2 (k - c) (by omega) hs', show k - c + 1 = k + 1 - c by omega]
        exact Mem.copy_split (by omega) (fun i hi => by rw [hpa i hi]) fun i _ => by rw [Nat.add_assoc]
  | case3 _ _ _ _ _ => cases hg
  | case4 dst d srcva max got hc hgt =>
    subst hg
    have hm : max.toNat = 0 := by
      simp only [true_and, gt_iff_lt, UInt64.lt_iff_toNat_lt, UInt64.toNat_zero] at hc
      omega
    rw [copyinstrLoop, if_neg hc, if_neg hgt, hm]
    exact ⟨⟨fun h => absurd h (by simp), fun ⟨k, hk, _⟩ => absurd hk (by omega)⟩,
      fun k hk => absurd hk (by omega), .inr rfl, Mem.Frame.refl _ _⟩

/-- `strlen(s)` over a buffer of `size` bytes: the index of its first NUL. -/
def strlen (s : Nat → UInt8) : Nat → Nat
  | 0 => 0
  | size + 1 => if s 0 = 0 then 0 else strlen (fun i => s (i + 1)) size + 1

theorem strlen_eq : ∀ {s : Nat → UInt8} {size k : Nat}, k < size → s k = 0 → (∀ j < k, s j ≠ 0) → strlen s size = k
  | _, 0, _, hk, _, _ => absurd hk (by omega)
  | _, _ + 1, 0, _, h0, _ => by rw [strlen, if_pos h0]
  | s, size + 1, k + 1, hk, h0, hne => by
    rw [strlen, if_neg (hne 0 (by omega)),
      @strlen_eq (fun i => s (i + 1)) size k (by omega) h0 fun j hj => hne (j + 1) (by omega)]

/-- `fetchstr(addr, buf, max)` for the process with page table `pagetable`: `copyinstr` with the
`int` `max` as a `uint64`, then the string's length, or `-1`. -/
def fetchstr (s : Phys) (pagetable addr : UInt64) (buf : Nat → UInt8) (max : Int32) : Int × (Nat → UInt8) :=
  let r := copyinstr s pagetable buf addr max.toInt64.toUInt64
  if r.1 < 0 then r else ((strlen r.2 max.toInt64.toUInt64.toNat : Nat), r.2)

/-- `fetchstr` rejects what `copyinstr` finds no string in. -/
theorem fetchstr_of_no_string {s : Phys} {pagetable addr : UInt64} {buf : Nat → UInt8} {m : Int32}
    (h : ¬ ∃ k < m.toInt64.toUInt64.toNat, StrAt s pagetable addr.toNat k) : (fetchstr s pagetable addr buf m).1 = -1 := by
  have hs := copyinstrLoop_spec s pagetable buf 0 addr m.toInt64.toUInt64 false rfl
  have hr : (copyinstr s pagetable buf addr m.toInt64.toUInt64).1 = -1 :=
    hs.2.2.1.resolve_left fun h0 => h (hs.1.mp h0)
  unfold fetchstr
  rw [if_pos (by rw [hr]; decide), hr]

/-- `copyinstr` succeeds just when the string at `va` ends within `max` bytes, all of it on mapped
user pages, and then holds it with its NUL and nothing more; otherwise it returns `-1`, having
written no byte past `max`.  So `fetchstr` rejects a string of `max` bytes none of which is NUL,
and one that runs into a page that is not mapped, and otherwise returns the string's length. -/
theorem copyinstr_finds_nul (s : Phys) (pagetable va max : UInt64) (dst : Nat → UInt8) :
    ((copyinstr s pagetable dst va max).1 = 0 ↔ ∃ k < max.toNat, StrAt s pagetable va.toNat k) ∧
    (∀ k < max.toNat, StrAt s pagetable va.toNat k →
      (copyinstr s pagetable dst va max).2 = Mem.copy dst 0 (k + 1) fun j => s.mem (paOf s pagetable (va.toNat + j))) ∧
    ((copyinstr s pagetable dst va max).1 ≠ 0 → (copyinstr s pagetable dst va max).1 = -1 ∧
      ∀ b, max.toNat ≤ b → (copyinstr s pagetable dst va max).2 b = dst b) ∧
    ∀ (buf : Nat → UInt8) (m : Int32),
      ((∀ j < m.toInt64.toUInt64.toNat, UserMapped s pagetable (va.toNat + j) ∧
          s.mem (paOf s pagetable (va.toNat + j)) ≠ 0) → (fetchstr s pagetable va buf m).1 = -1) ∧
      ((∃ j < m.toInt64.toUInt64.toNat, ¬ UserMapped s pagetable (va.toNat + j) ∧
          ∀ i < j, s.mem (paOf s pagetable (va.toNat + i)) ≠ 0) → (fetchstr s pagetable va buf m).1 = -1) ∧
      ∀ k < m.toInt64.toUInt64.toNat, StrAt s pagetable va.toNat k → (fetchstr s pagetable va buf m).1 = k := by
  obtain ⟨h1, h2, h3, h4⟩ := copyinstrLoop_spec s pagetable dst 0 va max false rfl
  refine ⟨h1, h2, fun h0 => ⟨h3.resolve_left h0, fun b hb => h4 b (by omega)⟩, fun buf m => ⟨?_, ?_, ?_⟩⟩
  · -- every byte is mapped and none is NUL
    intro hall
    exact fetchstr_of_no_string fun ⟨k, hk, hs⟩ => (hall k hk).2 hs.2.1
  · -- the string runs into a page that is not mapped before a NUL
    rintro ⟨j, hj, hu, hne⟩
    refine fetchstr_of_no_string fun ⟨k, hk, hs⟩ => ?_
    by_cases hjk : j ≤ k
    · exact hu (hs.1 j hjk)
    · exact hne k (by omega) hs.2.1
  · intro k hk hs
    obtain ⟨g1, g2, -, -⟩ := copyinstrLoop_spec s pagetable buf 0 va m.toInt64.toUInt64 false rfl
    have h0 : (copyinstr s pagetable buf va m.toInt64.toUInt64).1 = 0 := g1.mpr ⟨k, hk, hs⟩
    unfold fetchstr
    rw [if_neg (by rw [h0]; decide)]
    -- the buffer holds the string and its NUL
    have hb : ∀ j ≤ k, (copyinstr s pagetable buf va m.toInt64.toUInt64).2 j = s.mem (paOf s pagetable (va.toNat + j)) := by
      intro j hj
      rw [copyinstr, g2 k hk hs, Mem.copy_of_mem (Nat.zero_le j) (show j < 0 + (k + 1) by omega), Nat.sub_zero]
    dsimp only
    rw [strlen_eq hk (by rw [hb k le_rfl]; exact hs.2.1) fun j hj => by rw [hb j (by omega)]; exact hs.2.2 j hj]

end Xv6Sched.Vm
