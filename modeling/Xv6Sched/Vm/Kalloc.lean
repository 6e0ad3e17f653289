import Xv6Sched.Vm.Uvm
import Xv6Sched.Lib.Lts
import Mathlib.Data.List.Nodup

/-!
# Xv6Sched.Vm.Kalloc — the free list of `kernel/kalloc.c` as the code keeps it

`Kmem` is `kmem` with physical memory: `freelist` is the pointer `kmem.freelist`, and the list
runs through the free pages themselves, the first 8 bytes of each being `r->next` (`nextOf`).
`Chain m p l` says that following those pointers from `p` visits the pages of `l` in order and
then reaches NULL; with `l.Nodup` the list is finite and acyclic.  `kfree` fills the page with
junk before it writes the link, and `kalloc` reads the link before it fills the page, so a chain
survives both as long as the pages of the list are distinct and aligned (`chain_kfree`,
`chain_kalloc`).

The `Phys` allocator of `Vm.Pagetable`, whose free list is a list, is what this one computes:
`Abs` relates the two and every call keeps it (`kfree_refines`, `kalloc_refines`).

`freerange` frees the whole pages from `PGROUNDUP(pa_start)` below `pa_end` in increasing order,
so they stand in the list in decreasing order (`freerange_spec`).  Over every sequence of `kalloc`
and `kfree` calls from `kinit` in which `kfree` only gets pages that `kalloc` handed out and that
were not freed since, the free list stays a duplicate-free chain of aligned pages in
`[PGROUNDUP(end), PHYSTOP)`, apart from the pages handed out (`FreeListOk`), and `kalloc` takes
its head.
-/

namespace Xv6Sched.Vm

/-- `kmem` and the memory the free list runs through; `kend` is `end`. -/
structure Kmem where
  mem : Nat → UInt8
  freelist : UInt64
  kend : UInt64

/-- `r->next`: the first 8 bytes of the page at `r`. -/
def nextOf (m : Nat → UInt8) (r : UInt64) : UInt64 := UInt64.ofNat (Mem.load m r.toNat 8)

namespace Kmem

/-- `kfree(pa)`; `none` is `panic("kfree")`.  `memset(pa, 1, PGSIZE)`, then `r->next =
kmem.freelist` and `kmem.freelist = r`. -/
def kfree (k : Kmem) (pa : UInt64) : Option Kmem :=
  if pa % PGSIZE ≠ 0 ∨ pa < k.kend ∨ pa ≥ PHYSTOP then none
  else
    some { k with mem := Mem.store (Mem.fill k.mem pa.toNat PGSIZE.toNat 1) pa.toNat 8 k.freelist.toNat,
                  freelist := pa }

/-- `kalloc()`: `r = kmem.freelist`; if it is not NULL, `kmem.freelist = r->next` and then
`memset(r, 5, PGSIZE)`. -/
def kalloc (k : Kmem) : UInt64 × Kmem :=
  if k.freelist ≠ 0 then
    (k.freelist, { k with mem := Mem.fill k.mem k.freelist.toNat PGSIZE.toNat 5, freelist := nextOf k.mem k.freelist })
  else (0, k)

theorem kfree_lt {k k' : Kmem} {pa : UInt64} (h : k.kfree pa = some k') : pa < PHYSTOP := by
  unfold kfree at h
  split_ifs at h with hc
  exact UInt64.not_le.mp fun h' => hc (.inr (.inr h'))

theorem toNat_PHYSTOP : PHYSTOP.toNat = 2281701376 := rfl

/-- Up to `PHYSTOP` a page does not wrap. -/
theorem toNat_add_PGSIZE_of_le {p : UInt64} (h : p ≤ PHYSTOP) : (p + PGSIZE).toNat = p.toNat + 4096 :=
  toNat_add_PGSIZE (UInt64.lt_iff_toNat_lt.mpr (by
    have := UInt64.le_iff_toNat_le.mp h
    rw [toNat_PHYSTOP] at this
    rw [toNat_MAXVA]
    omega))

/-- The loop of `freerange` from `p`: `kfree(p)` while a whole page fits below `pa_end`.  A page
that `kfree` accepts lies below `PHYSTOP`, so `p + PGSIZE` does not wrap. -/
def freerangeLoop (pa_end p : UInt64) (k : Kmem) : Option Kmem :=
  if _h : p + PGSIZE ≤ pa_end then
    match _hk : k.kfree p with
    | none => none
    | some k' => freerangeLoop pa_end (p + PGSIZE) k'
  else some k
termination_by pa_end.toNat - p.toNat
decreasing_by
  have hadd := toNat_add_PGSIZE_of_le (UInt64.le_of_lt (kfree_lt _hk))
  have hle := UInt64.le_iff_toNat_le.mp _h
  omega

/-- `freerange(pa_start, pa_end)`. -/
def freerange (k : Kmem) (pa_start pa_end : UInt64) : Option Kmem :=
  freerangeLoop pa_end (PGROUNDUP pa_start) k

/-- `kinit()` on memory `m` with the kernel ending at `kend`: `kmem.freelist` starts NULL, then
`freerange(end, PHYSTOP)`. -/
def kinit (m : Nat → UInt8) (kend : UInt64) : Option Kmem :=
  freerange ⟨m, 0, kend⟩ kend PHYSTOP

end Kmem

/-- Following `r->next` from `p` visits the pages of `l` in order, then reaches NULL. -/
def Chain (m : Nat → UInt8) : UInt64 → List UInt64 → Prop
  | p, [] => p = 0
  | p, q :: l => p = q ∧ q ≠ 0 ∧ Chain m (nextOf m q) l

/-- The whole pages from `a` below `b`: `a + PGSIZE * i` while a page fits. -/
def wholePages (a b : UInt64) : List UInt64 :=
  (List.range ((b.toNat - a.toNat) / 4096)).map fun i => UInt64.ofNat (a.toNat + 4096 * i)

/-! ### Chains -/

section Chain

variable {m m' : Nat → UInt8} {p : UInt64} {l : List UInt64}

/-- The head of a chain's list is where it starts. -/
theorem Chain.headD (h : Chain m p l) : l.headD 0 = p := by
  cases l with
  | nil => exact h.symm
  | cons q l => exact h.1.symm

/-- The memory and the head determine the list. -/
theorem Chain.unique {l' : List UInt64} (h : Chain m p l) (h' : Chain m p l') : l = l' := by
  induction l generalizing p l' with
  | nil =>
    cases l' with
    | nil => rfl
    | cons q l' => exact absurd (h'.1.symm.trans h) h'.2.1
  | cons q l ih =>
    cases l' with
    | nil => exact absurd (h.1.symm.trans h') h.2.1
    | cons q' l' =>
      obtain ⟨hq, -, hl⟩ := h
      obtain ⟨hq', -, hl'⟩ := h'
      obtain rfl : q = q' := hq.symm.trans hq'
      rw [ih hl hl']

/-- A chain reads only the links of its pages. -/
theorem Chain.congr (h : Chain m p l) (hm : ∀ q ∈ l, ∀ j < 8, m' (q.toNat + j) = m (q.toNat + j)) :
    Chain m' p l := by
  induction l generalizing p with
  | nil => exact h
  | cons q l ih =>
    obtain ⟨hp, hq, hl⟩ := h
    have hnext : nextOf m' q = nextOf m q := by
      unfold nextOf
      rw [Mem.load_congr (hm q List.mem_cons_self)]
    refine ⟨hp, hq, ?_⟩
    rw [hnext]
    exact ih hl fun q' hq' => hm q' (List.mem_cons_of_mem _ hq')

/-- A chain of aligned pages survives a change inside a page that is not on it. -/
theorem Chain.of_frame {pa : UInt64} (h : Chain m p l) (hf : Mem.Frame m m' (PageBytes pa))
    (hal : ∀ q ∈ l, q.toNat % 4096 = 0) (hpa : pa.toNat % 4096 = 0) (hout : pa ∉ l) : Chain m' p l :=
  h.congr fun q hq j hj => hf _ fun hb => hout (by
    have e := eq_of_pageBytes (hal q hq) hpa ⟨Nat.le_add_right _ _, by omega⟩ hb
    exact e ▸ hq)

end Chain

/-! ### The two calls on a chain -/

section Calls

variable {k k' : Kmem} {pa q : UInt64} {l : List UInt64}

/-- What `kfree` does when it does not panic: the page checked, filled and linked in front. -/
theorem Kmem.kfree_eq_some (h : k.kfree pa = some k') :
    pa.toNat % 4096 = 0 ∧ k.kend ≤ pa ∧ pa < PHYSTOP ∧
      k' = { k with mem := Mem.store (Mem.fill k.mem pa.toNat PGSIZE.toNat 1) pa.toNat 8 k.freelist.toNat,
                    freelist := pa } := by
  unfold Kmem.kfree at h
  split_ifs at h with hc
  cases h
  simp only [not_or, ne_eq, Decidable.not_not, UInt64.not_lt, UInt64.not_le] at hc
  obtain ⟨h0, hk, hP⟩ := hc
  exact ⟨by rw [← toNat_mod_PGSIZE, h0]; rfl, hk, hP, rfl⟩

theorem Kmem.kfree_isSome (h0 : pa.toNat % 4096 = 0) (hk : k.kend ≤ pa) (hP : pa < PHYSTOP) :
    ∃ k', k.kfree pa = some k' := by
  have hm : pa % PGSIZE = 0 := UInt64.toNat_inj.mp (by rw [toNat_mod_PGSIZE, h0]; rfl)
  unfold Kmem.kfree
  rw [if_neg (by simp [hm, UInt64.not_lt.mpr hk, UInt64.not_le.mpr hP])]
  exact ⟨_, rfl⟩

theorem Kmem.kalloc_of_ne (h : k.freelist ≠ 0) :
    k.kalloc = (k.freelist, { k with mem := Mem.fill k.mem k.freelist.toNat PGSIZE.toNat 5,
                                     freelist := nextOf k.mem k.freelist }) := by
  rw [Kmem.kalloc, if_pos h]

theorem Kmem.kalloc_of_eq (h : k.freelist = 0) : k.kalloc = (0, k) := by
  rw [Kmem.kalloc, if_neg (not_not.mpr h)]

/-- The link `kfree` writes reads back as the old head. -/
theorem nextOf_kfree (m : Nat → UInt8) (pa v : UInt64) :
    nextOf (Mem.store (Mem.fill m pa.toNat PGSIZE.toNat 1) pa.toNat 8 v.toNat) pa = v := by
  unfold nextOf
  rw [Mem.load_store, Nat.mod_eq_of_lt (by have := v.toNat_lt; simpa using this), UInt64.ofNat_toNat]

/-- `kfree` pushes a page that is not on the list, and writes nothing else the chain reads. -/
theorem chain_kfree (h : k.kfree pa = some k') (hc : Chain k.mem k.freelist l)
    (hal : ∀ q ∈ l, q.toNat % 4096 = 0) (hout : pa ∉ l) (hpa : pa ≠ 0) :
    Chain k'.mem k'.freelist (pa :: l) := by
  obtain ⟨h0, -, -, rfl⟩ := Kmem.kfree_eq_some h
  refine ⟨rfl, hpa, ?_⟩
  rw [nextOf_kfree]
  refine hc.of_frame ?_ hal h0 hout
  have hs : Mem.Frame (Mem.fill k.mem pa.toNat PGSIZE.toNat 1)
      (Mem.store (Mem.fill k.mem pa.toNat PGSIZE.toNat 1) pa.toNat 8 k.freelist.toNat)
      fun b => pa.toNat ≤ b ∧ b < pa.toNat + 8 := by
    unfold Mem.store
    exact Mem.frame_copy _ _ _ _
  refine ((frame_fill k.mem pa 1).trans hs).mono fun b hb => ?_
  rcases hb with hb | hb
  · exact hb
  · exact ⟨hb.1, by omega⟩

/-- `kalloc` on a chain of distinct aligned pages returns its head and leaves the rest a chain:
it reads the link before it fills the page. -/
theorem chain_kalloc (hc : Chain k.mem k.freelist (q :: l)) (hal : ∀ q' ∈ l, q'.toNat % 4096 = 0)
    (hq : q.toNat % 4096 = 0) (hout : q ∉ l) : k.kalloc.1 = q ∧ Chain k.kalloc.2.mem k.kalloc.2.freelist l := by
  obtain ⟨hp, hq0, hl⟩ := hc
  rw [Kmem.kalloc_of_ne (hp ▸ hq0), hp]
  exact ⟨rfl, hl.of_frame (frame_fill k.mem q 5) hal hq hout⟩

/-- `kalloc` on an empty chain returns `0` and changes nothing. -/
theorem kalloc_of_chain_nil (hc : Chain k.mem k.freelist []) : k.kalloc = (0, k) := Kmem.kalloc_of_eq hc

end Calls

/-! ### The list allocator of `Phys` is this one -/

/-- `s` is the allocator `k` with its free list read through the chain. -/
def Abs (k : Kmem) (s : Phys) : Prop := k.mem = s.mem ∧ k.kend = s.kend ∧ Chain k.mem k.freelist s.freelist

section Refines

variable {k : Kmem} {s : Phys} {pa : UInt64}

/-- `kfree` panics in both or in neither, and otherwise keeps the relation, as long as the list
holds distinct aligned pages and `end` is above `0`. -/
theorem kfree_refines (h : Abs k s) (hpos : 0 < s.kend) (hal : ∀ q ∈ s.freelist, q.toNat % 4096 = 0)
    (hout : pa ∉ s.freelist) :
    (k.kfree pa = none ↔ kfree s pa = none) ∧ ∀ s', kfree s pa = some s' → ∃ k', k.kfree pa = some k' ∧ Abs k' s' := by
  obtain ⟨hm, hk, hc⟩ := h
  refine ⟨⟨fun hn => ?_, fun hn => ?_⟩, fun s' hs => ?_⟩
  · cases hs : kfree s pa with
    | none => rfl
    | some s' =>
      obtain ⟨h0, hkp, hP, -⟩ := kfree_eq_some hs
      obtain ⟨k', hk'⟩ := Kmem.kfree_isSome h0 (hk ▸ hkp) hP
      rw [hn] at hk'
      cases hk'
  · cases hs : k.kfree pa with
    | none => rfl
    | some k' =>
      obtain ⟨h0, hkp, hP, -⟩ := Kmem.kfree_eq_some hs
      obtain ⟨s', hs'⟩ := kfree_isSome h0 (hk ▸ hkp) hP
      rw [hn] at hs'
      cases hs'
  · obtain ⟨h0, hkp, hP, -⟩ := kfree_eq_some hs
    obtain ⟨k', hk'⟩ := Kmem.kfree_isSome h0 (hk ▸ hkp) hP
    have hpa : pa ≠ 0 := fun e => UInt64.not_le.mpr hpos (e ▸ hkp)
    refine ⟨k', hk', ?_, ?_, ?_⟩
    · -- the same bytes: `r->next` is the head of the list
      obtain ⟨-, -, -, rfl⟩ := Kmem.kfree_eq_some hk'
      unfold kfree at hs
      split_ifs at hs
      cases hs
      dsimp only
      rw [hm, hc.headD]
    · obtain ⟨-, -, -, rfl⟩ := Kmem.kfree_eq_some hk'
      rw [(kfree_eq_some hs).2.2.2.2.1]
      exact hk
    · rw [(kfree_eq_some hs).2.2.2.1]
      exact chain_kfree hk' hc hal hout hpa

/-- `kalloc` returns the same page in both and keeps the relation. -/
theorem kalloc_refines (h : Abs k s) (hal : ∀ q ∈ s.freelist, q.toNat % 4096 = 0) (hnd : s.freelist.Nodup) :
    k.kalloc.1 = (kalloc s).1 ∧ Abs k.kalloc.2 (kalloc s).2 := by
  obtain ⟨hm, hk, hc⟩ := h
  cases hfl : s.freelist with
  | nil =>
    rw [hfl] at hc
    rw [kalloc_of_chain_nil hc, kalloc_nil hfl]
    exact ⟨rfl, hm, hk, hfl ▸ hc⟩
  | cons q rest =>
    rw [hfl] at hc hal hnd
    obtain ⟨h1, h2⟩ := chain_kalloc hc (fun q' hq' => hal q' (List.mem_cons_of_mem _ hq'))
      (hal q List.mem_cons_self) (List.nodup_cons.mp hnd).1
    rw [kalloc_cons hfl]
    refine ⟨h1, ?_, ?_, h2⟩
    · rw [Kmem.kalloc_of_ne (hc.1 ▸ hc.2.1), hc.1, hm]
    · rw [Kmem.kalloc_of_ne (hc.1 ▸ hc.2.1)]
      exact hk

end Refines

/-! ### `freerange` -/

section Freerange

variable {pa_end p : UInt64} {k k₁ : Kmem}

theorem freerangeLoop_of_not (h : ¬ p + PGSIZE ≤ pa_end) : k.freerangeLoop pa_end p = some k := by
  rw [Kmem.freerangeLoop.eq_def, dif_neg h]

theorem freerangeLoop_of_kfree (h : p + PGSIZE ≤ pa_end) (hk : k.kfree p = some k₁) :
    k.freerangeLoop pa_end p = k₁.freerangeLoop pa_end (p + PGSIZE) := by
  rw [Kmem.freerangeLoop.eq_def, dif_pos h]
  split
  · next heq =>
    rw [hk] at heq
    cases heq
  · next k' heq =>
    rw [hk] at heq
    cases heq
    rfl

/-- The whole pages from `p + PGSIZE` and then `p` are the whole pages from `p`, last first. -/
theorem pages_succ (n : Nat) (hadd : (p + PGSIZE).toNat = p.toNat + 4096) (l : List UInt64) :
    ((List.range n).map fun i => UInt64.ofNat ((p + PGSIZE).toNat + 4096 * i)).reverse ++ p :: l =
      ((List.range (n + 1)).map fun i => UInt64.ofNat (p.toNat + 4096 * i)).reverse ++ l := by
  rw [List.range_succ_eq_map, List.map_cons, List.map_map, List.reverse_cons, List.append_assoc,
    List.singleton_append, Nat.mul_zero, Nat.add_zero, UInt64.ofNat_toNat]
  have hfg : (fun i => UInt64.ofNat ((p + PGSIZE).toNat + 4096 * i)) =
      (fun i => UInt64.ofNat (p.toNat + 4096 * i)) ∘ Nat.succ := by
    funext i
    rw [Function.comp_apply, hadd]
    exact congrArg UInt64.ofNat (by omega)
  rw [hfg]

/-- `freerange`'s loop from an aligned `p` frees the `n` whole pages from `p` below `pa_end`, which
end up in front of the list, last freed first.  The induction is on `n`; each page freed lies
above every page already on the list, so it is not on it. -/
theorem freerangeLoop_spec (hend : pa_end ≤ PHYSTOP) : ∀ (n : Nat) (p : UInt64) (k : Kmem) (l : List UInt64),
    (pa_end.toNat - p.toNat) / 4096 = n → p.toNat % 4096 = 0 → p ≤ PHYSTOP → 0 < k.kend → k.kend ≤ p →
      Chain k.mem k.freelist l → (∀ q ∈ l, q.toNat % 4096 = 0 ∧ q < p) →
      ∃ k', k.freerangeLoop pa_end p = some k' ∧ k'.kend = k.kend ∧
        Chain k'.mem k'.freelist (((List.range n).map fun i => UInt64.ofNat (p.toNat + 4096 * i)).reverse ++ l)
  | 0, p, k, l, hn, _, hp, _, _, hc, _ => by
    have hadd := Kmem.toNat_add_PGSIZE_of_le hp
    refine ⟨k, freerangeLoop_of_not fun h => ?_, rfl, by simpa using hc⟩
    have := UInt64.le_iff_toNat_le.mp h
    omega
  | n + 1, p, k, l, hn, hal, hp, hpos, hk, hc, hl => by
    have hadd := Kmem.toNat_add_PGSIZE_of_le hp
    have hendn := UInt64.le_iff_toNat_le.mp hend
    rw [Kmem.toNat_PHYSTOP] at hendn
    have hfit : p + PGSIZE ≤ pa_end := UInt64.le_iff_toNat_le.mpr (by omega)
    have hlt : p < PHYSTOP := UInt64.lt_iff_toNat_lt.mpr (by rw [Kmem.toNat_PHYSTOP]; omega)
    obtain ⟨k₁, hk₁⟩ := Kmem.kfree_isSome hal hk hlt
    have hpa : p ≠ 0 := fun e => UInt64.not_le.mpr hpos (e ▸ hk)
    have hout : p ∉ l := fun hp' => UInt64.lt_irrefl p (hl p hp').2
    have hc₁ := chain_kfree hk₁ hc (fun q hq => (hl q hq).1) hout hpa
    have hkend₁ : k₁.kend = k.kend := by
      obtain ⟨-, -, -, rfl⟩ := Kmem.kfree_eq_some hk₁
      rfl
    -- the rest of the loop starts one page up, with `p` on the list below it
    have hl₁ : ∀ q ∈ p :: l, q.toNat % 4096 = 0 ∧ q < p + PGSIZE := by
      intro q hq
      rcases List.mem_cons.mp hq with rfl | hq
      · exact ⟨hal, UInt64.lt_iff_toNat_lt.mpr (by omega)⟩
      · obtain ⟨hq0, hqp⟩ := hl q hq
        exact ⟨hq0, UInt64.lt_iff_toNat_lt.mpr (by have := UInt64.lt_iff_toNat_lt.mp hqp; omega)⟩
    obtain ⟨k', hk', hkend, hc'⟩ := freerangeLoop_spec hend n (p + PGSIZE) k₁ (p :: l)
      (by rw [hadd]; omega) (by rw [hadd]; omega)
      (UInt64.le_iff_toNat_le.mpr (by rw [hadd, Kmem.toNat_PHYSTOP]; omega)) (hkend₁ ▸ hpos)
      (UInt64.le_iff_toNat_le.mpr (by rw [hkend₁]; have := UInt64.le_iff_toNat_le.mp hk; omega)) hc₁ hl₁
    refine ⟨k', by rw [freerangeLoop_of_kfree hfit hk₁]; exact hk', hkend.trans hkend₁, ?_⟩
    rwa [← pages_succ n hadd]

/-- `PGROUNDUP(end)` for an `end` up to `PHYSTOP`: aligned, not below `end`, not above `PHYSTOP`. -/
theorem PGROUNDUP_facts {kend : UInt64} (h : kend ≤ PHYSTOP) :
    (PGROUNDUP kend).toNat % 4096 = 0 ∧ kend.toNat ≤ (PGROUNDUP kend).toNat ∧
      (PGROUNDUP kend).toNat ≤ PHYSTOP.toNat := by
  have hk := UInt64.le_iff_toNat_le.mp h
  rw [Kmem.toNat_PHYSTOP] at hk ⊢
  rw [toNat_PGROUNDUP (UInt64.le_iff_toNat_le.mpr (by rw [toNat_MAXVA]; omega))]
  omega

/-- `kinit()` puts exactly the whole pages from `PGROUNDUP(end)` below `PHYSTOP` on the list, the
highest first. -/
theorem kinit_spec {m : Nat → UInt8} {kend : UInt64} (hpos : 0 < kend) (hle : kend ≤ PHYSTOP) :
    ∃ k₀, Kmem.kinit m kend = some k₀ ∧ k₀.kend = kend ∧
      Chain k₀.mem k₀.freelist (wholePages (PGROUNDUP kend) PHYSTOP).reverse := by
  obtain ⟨h0, hkp, hP⟩ := PGROUNDUP_facts hle
  obtain ⟨k₀, hk₀, hkend, hc⟩ := freerangeLoop_spec (UInt64.le_refl _) _ (PGROUNDUP kend) ⟨m, 0, kend⟩ []
    rfl h0 (UInt64.le_iff_toNat_le.mpr hP) hpos (UInt64.le_iff_toNat_le.mpr hkp) rfl (fun _ h => absurd h List.not_mem_nil)
  rw [List.append_nil] at hc
  exact ⟨k₀, hk₀, hkend, hc⟩

/-- A whole page below `b ≤ PHYSTOP` from an aligned `a` is aligned, from `a` on, and fits. -/
theorem mem_wholePages {a b x : UInt64} (ha : a.toNat % 4096 = 0) (hb : b ≤ PHYSTOP) (hx : x ∈ wholePages a b) :
    x.toNat % 4096 = 0 ∧ a.toNat ≤ x.toNat ∧ x.toNat + 4096 ≤ b.toNat := by
  obtain ⟨i, hi, rfl⟩ := List.mem_map.mp hx
  rw [List.mem_range] at hi
  have hb' := UInt64.le_iff_toNat_le.mp hb
  rw [Kmem.toNat_PHYSTOP] at hb'
  rw [UInt64.toNat_ofNat_of_lt' (by unfold UInt64.size; omega)]
  omega

theorem nodup_wholePages {a b : UInt64} (hb : b ≤ PHYSTOP) : (wholePages a b).Nodup := by
  have hb' := UInt64.le_iff_toNat_le.mp hb
  rw [Kmem.toNat_PHYSTOP] at hb'
  refine List.Nodup.map_on (fun i hi j hj e => ?_) List.nodup_range
  rw [List.mem_range] at hi hj
  have := congrArg UInt64.toNat e
  rw [UInt64.toNat_ofNat_of_lt' (by unfold UInt64.size; omega),
    UInt64.toNat_ofNat_of_lt' (by unfold UInt64.size; omega)] at this
  omega

end Freerange

/-! ### Every sequence of calls from `kinit` -/

/-- A call of the allocator. -/
inductive KOp where
  | kalloc
  | kfree (pa : UInt64)

/-- The allocator, with the pages `kalloc` handed out that were not freed since. -/
structure KSys where
  k : Kmem
  alloc : List UInt64

/-- One call.  `kalloc` hands out what it returns unless that is `0`; `kfree` is only given a
page that is handed out. -/
def kStep (s : KSys) : KOp → Option KSys
  | .kalloc => some ⟨s.k.kalloc.2, if s.k.kalloc.1 = 0 then s.alloc else s.k.kalloc.1 :: s.alloc⟩
  | .kfree pa => if pa ∈ s.alloc then (s.k.kfree pa).map fun k' => ⟨k', s.alloc.erase pa⟩ else none

/-- The states reached by calls from `kinit()` on memory `m`, the kernel ending at `kend`. -/
def KReachable (m : Nat → UInt8) (kend : UInt64) (s : KSys) : Prop :=
  ∃ k₀, Kmem.kinit m kend = some k₀ ∧ LTS.Reachable kStep ⟨k₀, []⟩ s

/-- A page of the range `kinit` gives the allocator: aligned, in `[PGROUNDUP(end), PHYSTOP)`. -/
def KPage (kend p : UInt64) : Prop := p.toNat % 4096 = 0 ∧ PGROUNDUP kend ≤ p ∧ p < PHYSTOP

/-- What holds between calls, of the free list `l` that the chain reads. -/
structure FreeListOk (kend : UInt64) (s : KSys) (l : List UInt64) : Prop where
  kend_eq : s.k.kend = kend
  chain : Chain s.k.mem s.k.freelist l
  nodup : l.Nodup
  page : ∀ p ∈ l, KPage kend p
  disjoint : ∀ p ∈ l, p ∉ s.alloc
  alloc_nodup : s.alloc.Nodup
  alloc_page : ∀ p ∈ s.alloc, KPage kend p

section Run

variable {kend : UInt64} (hpos : 0 < kend) (hle : kend ≤ PHYSTOP) {s : KSys} {l : List UInt64} {p : UInt64}

include hle in
theorem KPage.kend_le (h : KPage kend p) : kend ≤ p :=
  UInt64.le_iff_toNat_le.mpr ((PGROUNDUP_facts hle).2.1.trans (UInt64.le_iff_toNat_le.mp h.2.1))

include hpos hle in
theorem KPage.ne_zero (h : KPage kend p) : p ≠ 0 := fun e =>
  UInt64.not_le.mpr hpos (e ▸ KPage.kend_le hle h)

include hpos hle in
/-- `kalloc` takes the head of the list, which is not handed out, and hands it out. -/
theorem FreeListOk.kalloc (h : FreeListOk kend s l) :
    FreeListOk kend ⟨s.k.kalloc.2, if s.k.kalloc.1 = 0 then s.alloc else s.k.kalloc.1 :: s.alloc⟩ l.tail := by
  obtain ⟨k, alloc⟩ := s
  cases l with
  | nil =>
    have hk := kalloc_of_chain_nil h.chain
    simp only [hk, if_pos]
    exact h
  | cons q l =>
    obtain ⟨hq, hnd⟩ := List.nodup_cons.mp h.nodup
    have hal : ∀ q' ∈ l, q'.toNat % 4096 = 0 := fun q' hq' => (h.page q' (List.mem_cons_of_mem _ hq')).1
    obtain ⟨h1, h2⟩ := chain_kalloc h.chain hal (h.page q List.mem_cons_self).1 hq
    have hq0 : q ≠ 0 := KPage.ne_zero hpos hle (h.page q List.mem_cons_self)
    have hqa : q ∉ alloc := h.disjoint q List.mem_cons_self
    rw [h1, if_neg hq0]
    refine ⟨?_, h2, hnd, fun p hp => h.page p (List.mem_cons_of_mem _ hp), fun p hp => ?_,
      List.nodup_cons.mpr ⟨hqa, h.alloc_nodup⟩, fun p hp => ?_⟩
    · rw [Kmem.kalloc_of_ne (h.chain.1 ▸ hq0)]
      exact h.kend_eq
    · rw [List.mem_cons]
      rintro (rfl | hpa)
      · exact hq hp
      · exact h.disjoint p (List.mem_cons_of_mem _ hp) hpa
    · rcases List.mem_cons.mp hp with rfl | hp
      · exact h.page _ List.mem_cons_self
      · exact h.alloc_page p hp

include hpos hle in
/-- `kfree` of a page handed out does not panic, and puts the page back in front of the list. -/
theorem FreeListOk.kfree {pa : UInt64} (h : FreeListOk kend s l) (hpa : pa ∈ s.alloc) :
    ∃ k', s.k.kfree pa = some k' ∧ FreeListOk kend ⟨k', s.alloc.erase pa⟩ (pa :: l) := by
  obtain ⟨k, alloc⟩ := s
  have hp := h.alloc_page pa hpa
  obtain ⟨k', hk'⟩ := Kmem.kfree_isSome hp.1 (by rw [h.kend_eq]; exact KPage.kend_le hle hp) hp.2.2
  have hout : pa ∉ l := fun hl => h.disjoint pa hl hpa
  refine ⟨k', hk', ?_, chain_kfree hk' h.chain (fun q hq => (h.page q hq).1) hout (KPage.ne_zero hpos hle hp),
    List.nodup_cons.mpr ⟨hout, h.nodup⟩, fun q hq => ?_, fun q hq => ?_, h.alloc_nodup.erase pa,
    fun q hq => h.alloc_page q (List.mem_of_mem_erase hq)⟩
  · obtain ⟨-, -, -, rfl⟩ := Kmem.kfree_eq_some hk'
    exact h.kend_eq
  · rcases List.mem_cons.mp hq with rfl | hq
    · exact hp
    · exact h.page q hq
  · rcases List.mem_cons.mp hq with rfl | hq
    · exact h.alloc_nodup.not_mem_erase
    · exact fun hq' => h.disjoint q hq (List.mem_of_mem_erase hq')

include hpos hle in
theorem FreeListOk.step {op : KOp} {s' : KSys} (h : FreeListOk kend s l) (hs : kStep s op = some s') :
    ∃ l', FreeListOk kend s' l' := by
  cases op with
  | kalloc =>
    simp only [kStep, Option.some.injEq] at hs
    subst hs
    exact ⟨l.tail, h.kalloc hpos hle⟩
  | kfree pa =>
    simp only [kStep] at hs
    split_ifs at hs with hpa
    obtain ⟨k', hk', h'⟩ := h.kfree hpos hle hpa
    rw [hk', Option.map_some] at hs
    cases hs
    exact ⟨pa :: l, h'⟩

include hpos hle in
/-- After `kinit()` nothing is handed out and the list is the whole pages of the range. -/
theorem freeListOk_init {m : Nat → UInt8} {k₀ : Kmem} (hk : Kmem.kinit m kend = some k₀) :
    FreeListOk kend ⟨k₀, []⟩ (wholePages (PGROUNDUP kend) PHYSTOP).reverse := by
  obtain ⟨k₁, hk₁, hkend, hc⟩ := kinit_spec (m := m) hpos hle
  obtain rfl : k₀ = k₁ := Option.some.inj (hk.symm.trans hk₁)
  obtain ⟨h0, -, -⟩ := PGROUNDUP_facts hle
  refine ⟨hkend, hc, List.nodup_reverse.mpr (nodup_wholePages (UInt64.le_refl _)), fun p hp => ?_,
    fun _ _ h => List.not_mem_nil h, List.nodup_nil, fun _ h => absurd h List.not_mem_nil⟩
  obtain ⟨hp0, hpa, hpb⟩ := mem_wholePages h0 (UInt64.le_refl _) (List.mem_reverse.mp hp)
  exact ⟨hp0, UInt64.le_iff_toNat_le.mpr hpa, UInt64.lt_iff_toNat_lt.mpr (by omega)⟩

include hpos hle in
theorem KReachable.freeListOk {m : Nat → UInt8} (hs : KReachable m kend s) : ∃ l, FreeListOk kend s l := by
  obtain ⟨k₀, hk₀, hr⟩ := hs
  exact LTS.Reachable.inv (P := fun s => ∃ l, FreeListOk kend s l) ⟨_, freeListOk_init hpos hle hk₀⟩
    (fun _ _ _ ⟨_, h⟩ hs => h.step hpos hle hs) hr

end Run

/-- From `kinit()` with the kernel ending at `end` in `(0, PHYSTOP]`: `freerange` puts exactly the
whole pages of `[PGROUNDUP(end), PHYSTOP)` on the list; and after any sequence of `kalloc` and
`kfree` calls in which `kfree` only gets pages handed out and not freed since, the free list is a
chain of distinct aligned pages of `[PGROUNDUP(end), PHYSTOP)`, none handed out, and `kalloc`
returns `0` exactly when it is empty and otherwise its head, leaving the rest. -/
theorem kalloc_free_list_ok {m : Nat → UInt8} {kend : UInt64} (hpos : 0 < kend) (hle : kend ≤ PHYSTOP) :
    (∃ k₀, Kmem.kinit m kend = some k₀ ∧ Chain k₀.mem k₀.freelist (wholePages (PGROUNDUP kend) PHYSTOP).reverse) ∧
    ∀ s, KReachable m kend s → ∃ l, Chain s.k.mem s.k.freelist l ∧ l.Nodup ∧
      (∀ p ∈ l, p.toNat % 4096 = 0 ∧ PGROUNDUP kend ≤ p ∧ p < PHYSTOP) ∧ (∀ p ∈ l, p ∉ s.alloc) ∧
      (s.k.kalloc.1 = 0 ↔ l = []) ∧
      ∀ r l', l = r :: l' → s.k.kalloc.1 = r ∧ r ∉ s.alloc ∧
        Chain s.k.kalloc.2.mem s.k.kalloc.2.freelist l' := by
  obtain ⟨k₀, hk₀, -, hc₀⟩ := kinit_spec (m := m) hpos hle
  refine ⟨⟨k₀, hk₀, hc₀⟩, fun s hs => ?_⟩
  obtain ⟨l, h⟩ := hs.freeListOk hpos hle
  -- `kalloc` on the list read through the chain
  have hpop : ∀ r l', l = r :: l' → s.k.kalloc.1 = r ∧ Chain s.k.kalloc.2.mem s.k.kalloc.2.freelist l' := by
    rintro r l' rfl
    exact chain_kalloc h.chain (fun q hq => (h.page q (List.mem_cons_of_mem _ hq)).1)
      (h.page r List.mem_cons_self).1 (List.nodup_cons.mp h.nodup).1
  refine ⟨l, h.chain, h.nodup, h.page, h.disjoint, ?_, fun r l' hl => ?_⟩
  · cases l with
    | nil => simp [kalloc_of_chain_nil h.chain]
    | cons q l =>
      rw [(hpop q l rfl).1]
      simp [KPage.ne_zero hpos hle (h.page q List.mem_cons_self)]
  · obtain ⟨h1, h2⟩ := hpop r l' hl
    exact ⟨h1, h.disjoint r (hl ▸ List.mem_cons_self), h2⟩

/-- The allocator from `kinit()` with the kernel ending at `KERNBASE`. -/
theorem kalloc_free_list_ok_kernbase :
    0 < KERNBASE ∧ KERNBASE ≤ PHYSTOP ∧
      ∃ k₀, Kmem.kinit (fun _ => 0) KERNBASE = some k₀ ∧
        Chain k₀.mem k₀.freelist (wholePages (PGROUNDUP KERNBASE) PHYSTOP).reverse :=
  ⟨by decide, by decide, (kalloc_free_list_ok (m := fun _ => 0) (by decide) (by decide)).1⟩

end Xv6Sched.Vm
