import Xv6Sched.Vm.Uvm

/-!
# Xv6Sched.Vm.Alloc — `uvmalloc`, page by page, and its rollback

`uvmalloc(pagetable, oldsz, newsz)` maps the pages of `[PGROUNDUP(oldsz), newsz)` one at a time:
`kalloc`, `memset` to zero, `mappages` of that one page with `PTE_W|PTE_X|PTE_R|PTE_U`.  When
`kalloc` finds no page, or `walk` no page for a table, it frees the page it holds and calls
`uvmdealloc(pagetable, a, oldsz)` to give back the pages it mapped.

`Mapped` is what such a loop has done over a range: each page mapped, with the flags given to
`mappages`, to a page that was free and holds what the loop wrote there (zeroes here, a copy in
`uvmcopy`), every other leaf as it was, tables added from the free list.  `Restored` is what a failed
call leaves: every leaf as it was, every page taken from the free list back on it or a table
`walk` added.  One page extends `Mapped` (`mapped_page`), runs compose (`Mapped.trans`), and a
failure at any page, with the `uvmdealloc` after it, is `Restored` (`Mapped.rollback`).
-/

namespace Xv6Sched.Vm

/-- `s'` is `s` with each page `va` of `[lo, hi)` mapped, with the flags `flags va` given to
`mappages`, to a page that was free in `s` and now holds `content va`; every other leaf as it was,
and tables added from the free list. -/
structure Mapped (pagetable : UInt64) (flags : UInt64 → UInt64) (content : UInt64 → Nat → UInt8) (lo hi : Nat)
    (s s' : Phys) : Prop where
  good : Good s' pagetable
  kend : s'.kend = s.kend
  suffix : s'.freelist <:+ s.freelist
  tables : ∀ q, TablePage s.mem pagetable q → TablePage s'.mem pagetable q
  new_tables : ∀ q, TablePage s'.mem pagetable q → TablePage s.mem pagetable q ∨ q ∈ s.freelist
  fresh : ∀ va < MAXVA, lo ≤ va.toNat → va.toNat < hi → ∃ e, leaf s'.mem pagetable va = some e ∧
    PTE_FLAGS e = flags va ||| PTE_V ∧ PTE2PA e ∈ s.freelist ∧
      ∀ k < 4096, s'.mem ((PTE2PA e).toNat + k) = content va k
  others : ∀ va < MAXVA, ¬ (lo ≤ va.toNat ∧ va.toNat < hi) → leaf s'.mem pagetable va = leaf s.mem pagetable va
  used : ∀ q ∈ s.freelist, q ∉ s'.freelist → TablePage s'.mem pagetable q ∨ MapsIn s' pagetable lo hi q
  frame : Mem.Frame s.mem s'.mem (Region s pagetable)

/-- `s'` is `s` with every leaf as it was, and every page taken from the free list back on it or a
table added to the tree. -/
structure Restored (pagetable : UInt64) (s s' : Phys) : Prop where
  good : Good s' pagetable
  kend : s'.kend = s.kend
  leaves : ∀ va < MAXVA, leaf s'.mem pagetable va = leaf s.mem pagetable va
  tables : ∀ q, TablePage s.mem pagetable q → TablePage s'.mem pagetable q
  new_tables : ∀ q, TablePage s'.mem pagetable q → TablePage s.mem pagetable q ∨ q ∈ s.freelist
  freelist : ∀ q ∈ s'.freelist, q ∈ s.freelist
  used : ∀ q ∈ s.freelist, q ∈ s'.freelist ∨ TablePage s'.mem pagetable q
  frame : Mem.Frame s.mem s'.mem (Region s pagetable)

/-! ### The allocator and the tree -/

section Pages

variable {s s' : Phys} {pagetable : UInt64}

/-- What a later state may store to, the earlier one already might. -/
theorem region_of_sub {b : Nat}
    (ht : ∀ q, TablePage s'.mem pagetable q → TablePage s.mem pagetable q ∨ q ∈ s.freelist)
    (hf : ∀ q ∈ s'.freelist, q ∈ s.freelist) (hb : Region s' pagetable b) : Region s pagetable b := by
  obtain ⟨q, hq | hq, hqb⟩ := hb
  · rcases ht q hq with hq | hq
    · exact ⟨q, .inl hq, hqb⟩
    · exact ⟨q, .inr hq, hqb⟩
  · exact ⟨q, .inr (hf q hq), hqb⟩

/-- The bytes of a data page lie in no table and no free page. -/
theorem Good.not_region_of_data (hg : Good s pagetable) {p : UInt64} (hp : DataPage s.mem pagetable p)
    {b : Nat} (hb : PageBytes p b) : ¬ Region s pagetable b := by
  have hpa : p.toNat % 4096 = 0 := by
    obtain ⟨va, -, e, -, rfl⟩ := hp
    exact PTE2PA_aligned e
  rintro ⟨q, hq | hq, hqb⟩
  · exact hg.data_table p hp (eq_of_pageBytes (hg.tree.tablePage_aligned hq) hpa hqb hb ▸ hq)
  · exact hg.free_data p (eq_of_pageBytes (hg.free.page q hq).1 hpa hqb hb ▸ hq) hp

/-- The bytes of a page that is no table lie in no table. -/
theorem Good.not_table_bytes (hg : Good s pagetable) {p : UInt64} (hp : p.toNat % 4096 = 0)
    (hpt : ¬ TablePage s.mem pagetable p) : ∀ q b, TablePage s.mem pagetable q → PageBytes q b → ¬ PageBytes p b :=
  fun _ _ hq hb hb' => hpt (eq_of_pageBytes (hg.tree.tablePage_aligned hq) hp hb hb' ▸ hq)

/-- `kfree` of a page that is no table, no data page and not free keeps the invariant and the
tree, and pushes the page. -/
theorem Good.kfree {p : UInt64} (hg : Good s pagetable) (hk : kfree s p = some s')
    (hpt : ¬ TablePage s.mem pagetable p) (hpd : ¬ DataPage s.mem pagetable p) (hpf : p ∉ s.freelist) :
    Good s' pagetable ∧ SameTree s.mem s'.mem pagetable := by
  obtain ⟨hp0, hpk, hpP, hfl, hkend, hframe⟩ := kfree_eq_some hk
  have hsame := sameTree_of_frame hg.tree hframe (hg.not_table_bytes hp0 hpt)
  have hfree : FreeOk s' :=
    { nodup := hfl ▸ List.nodup_cons.mpr ⟨hpf, hg.free.nodup⟩
      page := fun q hq => by
        rw [hfl] at hq
        rw [hkend]
        rcases List.mem_cons.mp hq with rfl | hq
        · exact ⟨hp0, hpk, hpP⟩
        · exact hg.free.page q hq
      kend_pos := hkend ▸ hg.free.kend_pos }
  refine ⟨⟨hsame.treeOk hg.tree, hfree, fun q hq ht => ?_, fun q hq hd => ?_,
    fun q hd ht => hg.data_table q (hsame.dataPage_iff.mp hd) (hsame.tablePage_iff.mp ht), ?_⟩, hsame⟩
  · rw [hfl] at hq
    rcases List.mem_cons.mp hq with rfl | hq
    · exact hpt (hsame.tablePage_iff.mp ht)
    · exact hg.free_table q hq (hsame.tablePage_iff.mp ht)
  · rw [hfl] at hq
    rcases List.mem_cons.mp hq with rfl | hq
    · exact hpd (hsame.dataPage_iff.mp hd)
    · exact hg.free_data q hq (hsame.dataPage_iff.mp hd)
  · intro va va' e e' hva hva' he he'
    exact hg.data_inj va va' e e' hva hva' ((hsame.2 va).symm.trans he) ((hsame.2 va').symm.trans he')

/-- `kalloc` of the head `p` of the free list, and the page then written with `c`: the page is
nobody's, and the tree is as it was. -/
theorem kalloc_write_spec {p : UInt64} {rest : List UInt64} (hg : Good s pagetable) (h : s.freelist = p :: rest)
    (c : Nat → UInt8) :
    Good { s with mem := Mem.copy (Mem.fill s.mem p.toNat PGSIZE.toNat 5) p.toNat PGSIZE.toNat c, freelist := rest }
        pagetable ∧
      SameTree s.mem (Mem.copy (Mem.fill s.mem p.toNat PGSIZE.toNat 5) p.toNat PGSIZE.toNat c) pagetable := by
  have hp : p ∈ s.freelist := h ▸ List.mem_cons_self
  have hframe : Mem.Frame s.mem (Mem.copy s.mem p.toNat PGSIZE.toNat c) (PageBytes p) := by
    unfold PageBytes
    exact Mem.frame_copy _ _ _ _
  unfold Mem.fill
  rw [Mem.copy_copy_self]
  exact (hg.pop h).of_frame hframe (hg.not_table_of_free hp)

end Pages

/-! ### Storing a leaf -/

section SetLeaf

variable {s : Phys} {pagetable va slot p f : UInt64}

/-- After the store of a valid PTE to `va`'s level-0 entry, the leaves of `va`'s page are that
PTE and the others are as they were. -/
theorem leaf_setLeaf (hok : TreeOk s.mem pagetable) (hva : va < MAXVA) (hs : slotOf s.mem pagetable va = some slot)
    (hv : f &&& PTE_V ≠ 0) (va' : UInt64) (hva' : va' < MAXVA) :
    leaf (stPte s.mem slot f) pagetable va' =
      if va'.toNat / 4096 = va.toNat / 4096 then some f else leaf s.mem pagetable va' := by
  rw [leaf_stPte hok hva hs f va' hva', validPte_stPte, if_pos hv]

/-- A data page after the store is the new leaf's page or was one before. -/
theorem dataPage_setLeaf (hok : TreeOk s.mem pagetable) (hva : va < MAXVA)
    (hs : slotOf s.mem pagetable va = some slot) (hv : f &&& PTE_V ≠ 0) {q : UInt64}
    (hq : DataPage (stPte s.mem slot f) pagetable q) : q = PTE2PA f ∨ DataPage s.mem pagetable q := by
  obtain ⟨va', hva', e, he, rfl⟩ := hq
  rw [leaf_setLeaf hok hva hs hv va' hva'] at he
  split_ifs at he
  · cases he
    exact .inl rfl
  · exact .inr ⟨va', hva', e, he, rfl⟩

/-- Storing a valid leaf to `va`'s entry, for a page that is no table, not free and no data page,
keeps the invariant. -/
theorem Good.setLeaf (hg : Good s pagetable) (hva : va < MAXVA) (hs : slotOf s.mem pagetable va = some slot)
    (hp : p.toNat % 4096 = 0) (hf : f.toNat < 1024)
    (hv : f &&& PTE_V ≠ 0) (hpt : ¬ TablePage s.mem pagetable p) (hpf : p ∉ s.freelist)
    (hpd : ¬ DataPage s.mem pagetable p) :
    Good { s with mem := stPte s.mem slot (PA2PTE p ||| f) } pagetable := by
  have hv' := PA2PTE_or_valid p f hf hv
  have hpa : PTE2PA (PA2PTE p ||| f) = p := PTE2PA_PA2PTE_or hp hf
  have hn := nodeAt_stPte_slot hg.tree hs (PA2PTE p ||| f)
  have hleaf := leaf_setLeaf hg.tree hva hs hv'
  refine ⟨hg.tree.of_nodeAt hn, ⟨hg.free.nodup, hg.free.page, hg.free.kend_pos⟩, fun q hq ht => hg.free_table q hq ((tablePage_iff_of_nodeAt hn).mp ht),
    fun q hq hd => ?_, fun q hd ht => ?_, fun va1 va2 e1 e2 h1 h2 he1 he2 heq => ?_⟩
  · rcases dataPage_setLeaf hg.tree hva hs hv' hd with rfl | hd
    · exact hpf (hpa ▸ hq)
    · exact hg.free_data q hq hd
  · rcases dataPage_setLeaf hg.tree hva hs hv' hd with rfl | hd
    · exact hpt (hpa ▸ (tablePage_iff_of_nodeAt hn).mp ht)
    · exact hg.data_table q hd ((tablePage_iff_of_nodeAt hn).mp ht)
  · -- the new leaf maps `p`, which no other leaf maps
    have hold : ∀ {va' e'}, va' < MAXVA → leaf s.mem pagetable va' = some e' → PTE2PA e' ≠ p :=
      fun hva' he' hp' => hpd ⟨_, hva', _, he', hp'⟩
    rw [hleaf va1 h1] at he1
    rw [hleaf va2 h2] at he2
    split_ifs at he1 he2 with c1 c2 c2
    · omega
    · cases he1
      exact absurd (heq.symm.trans hpa) (hold h2 he2)
    · cases he2
      exact absurd (heq.trans hpa) (hold h1 he1)
    · exact hg.data_inj va1 va2 e1 e2 h1 h2 he1 he2 heq

end SetLeaf

/-! ### `mappages` of one page -/

theorem walk_of_lt {s : Phys} {pagetable va : UInt64} (alloc : Bool) (hva : va < MAXVA) :
    walk s pagetable va alloc = some (walkFrom va alloc 2 pagetable s) := by
  unfold walk
  rw [if_neg (UInt64.not_le.mpr hva)]

/-- `mappages` of one page at a page boundary is one iteration of its loop. -/
theorem mappages_page {s : Phys} {pagetable a pa perm : UInt64} (ha : a.toNat % 4096 = 0) (hva : a < MAXVA) :
    mappages s pagetable a PGSIZE pa perm = mappagesLoop pagetable perm 1 a pa s := by
  have hm := UInt64.lt_iff_toNat_lt.mp hva
  rw [toNat_MAXVA] at hm
  have hd : PGROUNDDOWN a = a := UInt64.toNat_inj.mp (by rw [toNat_PGROUNDDOWN]; omega)
  have hl : PGROUNDDOWN (a + PGSIZE - 1) = a := by
    have h1 := toNat_add_PGSIZE hva
    apply UInt64.toNat_inj.mp
    rw [toNat_PGROUNDDOWN, UInt64.toNat_sub_of_le _ _ (UInt64.le_iff_toNat_le.mpr (by rw [h1]; simp)), h1]
    simp only [UInt64.toNat_one]
    omega
  simp only [mappages, hd, hl, UInt64.sub_self]
  rfl

/-- `mappages(pagetable, a, PGSIZE, pa, perm)` for an unmapped page `a`: `walk` adds tables from the
free list, and then either fails, the free list used up, or finds `a`'s level-0 entry, where the
PTE of `pa` goes. -/
theorem mappages_page_spec {s : Phys} {pagetable a pa perm : UInt64} (hg : Good s pagetable)
    (ha : a.toNat % 4096 = 0) (hva : a < MAXVA) (hnone : leaf s.mem pagetable a = none) :
    ∃ r s', mappages s pagetable a PGSIZE pa perm = some (r, s') ∧ ∃ s2, Good s2 pagetable ∧ Grows pagetable s s2 ∧
      (r = -1 ∧ s' = s2 ∧ s2.freelist = [] ∨
        r = 0 ∧ ∃ slot, slotOf s2.mem pagetable a = some slot ∧
          s' = { s2 with mem := stPte s2.mem slot (PA2PTE pa ||| perm ||| PTE_V) }) := by
  obtain ⟨hg2, hgr, hres⟩ := walkFrom_alloc_spec hg a
  rw [mappages_page ha hva, mappagesLoop, walk_of_lt true hva]
  generalize walkFrom a true 2 pagetable s = w at hg2 hgr hres
  obtain ⟨pte, s2⟩ := w
  dsimp only at hg2 hgr hres ⊢
  rcases hres with ⟨h0, hfl⟩ | ⟨hne, hslot⟩
  · rw [if_pos h0]
    exact ⟨-1, s2, rfl, s2, hg2, hgr, .inl ⟨rfl, rfl, hfl⟩⟩
  · -- `a` has no leaf, so its level-0 entry is not valid
    have hinv : ¬ ldPte s2.mem pte &&& PTE_V ≠ 0 := fun hv => by
      have hl : leaf s2.mem pagetable a = some (ldPte s2.mem pte) :=
        leaf_eq_some.mpr ⟨pte, hslot, validPte_eq_some.mpr ⟨rfl, hv⟩⟩
      rw [hgr.leaves, hnone] at hl
      cases hl
    rw [if_neg hne, if_neg hinv, mappagesLoop]
    exact ⟨0, _, rfl, s2, hg2, hgr, .inr ⟨rfl, pte, hslot, rfl⟩⟩

/-! ### One page of the loop -/

/-- `s'` is `s` after `kalloc` took the head `p` of the free list, the loop wrote `c` to it, and
`walk` added tables from the rest of the list. -/
structure Taken (pagetable p : UInt64) (c : Nat → UInt8) (s s' : Phys) : Prop where
  kend : s'.kend = s.kend
  suffix : ∃ rest, s.freelist = p :: rest ∧ s'.freelist <:+ rest
  tables : ∀ q, TablePage s.mem pagetable q → TablePage s'.mem pagetable q
  new_tables : ∀ q, TablePage s'.mem pagetable q → TablePage s.mem pagetable q ∨ q ∈ s.freelist
  used : ∀ q ∈ s.freelist, q ≠ p → q ∉ s'.freelist → TablePage s'.mem pagetable q
  leaves : ∀ va, leaf s'.mem pagetable va = leaf s.mem pagetable va
  not_table : ¬ TablePage s'.mem pagetable p
  not_free : p ∉ s'.freelist
  not_data : ¬ DataPage s'.mem pagetable p
  page : ∀ k < 4096, s'.mem (p.toNat + k) = c k
  frame : Mem.Frame s.mem s'.mem (Region s pagetable)

section Step

variable {s s2 s4 : Phys} {pagetable a p : UInt64} {rest : List UInt64}

/-- `kalloc` of the head of the free list, the page written, and a `walk` that grows the tree. -/
theorem taken_of_grows {c : Nat → UInt8} (hg : Good s pagetable) (hfl : s.freelist = p :: rest)
    (hgr : Grows pagetable
      { s with mem := Mem.copy (Mem.fill s.mem p.toNat PGSIZE.toNat 5) p.toNat PGSIZE.toNat c, freelist := rest } s2) :
    Taken pagetable p c s s2 := by
  obtain ⟨hg1, hs1⟩ := kalloc_write_spec hg hfl c
  have hp : p ∈ s.freelist := hfl ▸ List.mem_cons_self
  have hp0 := (hg.free.page p hp).1
  have hrest : p ∉ rest := (List.nodup_cons.mp (hfl ▸ hg.free.nodup)).1
  have hmem : ∀ q ∈ rest, q ∈ s.freelist := fun q hq => hfl ▸ List.mem_cons_of_mem p hq
  have hpt1 : ¬ TablePage (Mem.copy (Mem.fill s.mem p.toNat PGSIZE.toNat 5) p.toNat PGSIZE.toNat c) pagetable p :=
    fun h => hg.free_table p hp (hs1.tablePage_iff.mp h)
  refine ⟨hgr.kend, ⟨rest, hfl, hgr.suffix⟩, fun q hq => (hgr.tables q).mpr (.inl (hs1.tablePage_iff.mpr hq)),
    fun q hq => ?_, fun q hq hne hq' => ?_, fun va => (hgr.leaves va).trans (hs1.2 va), fun h => ?_,
    fun h => hrest (hgr.suffix.subset h), fun h => hg.free_data p hp (hs1.dataPage_iff.mp (hgr.dataPage_iff.mp h)),
    fun k hk => ?_, ?_⟩
  · rcases (hgr.tables q).mp hq with h | h
    · exact .inl (hs1.tablePage_iff.mp h)
    · exact .inr (hmem q h.1)
  · rw [hfl] at hq
    exact (hgr.tables q).mpr (.inr ⟨(List.mem_cons.mp hq).resolve_left hne, hq'⟩)
  · rcases (hgr.tables p).mp h with h | h
    · exact hpt1 h
    · exact hrest h.1
  · -- `walk` stored only to tables and to the rest of the list, and `p` is neither
    have hb : PageBytes p (p.toNat + k) := ⟨by omega, by omega⟩
    rw [hgr.frame _ ?_]
    · show Mem.copy (Mem.fill s.mem p.toNat PGSIZE.toNat 5) p.toNat PGSIZE.toNat c (p.toNat + k) = c k
      rw [Mem.copy_of_mem hb.1 (by rw [toNat_PGSIZE]; exact hb.2), Nat.add_sub_cancel_left]
    · rintro ⟨q, hq | hq, hqb⟩
      · obtain rfl := eq_of_pageBytes (hg1.tree.tablePage_aligned hq) hp0 hqb hb
        exact hpt1 hq
      · obtain rfl := eq_of_pageBytes (hg.free.page q (hmem q hq)).1 hp0 hqb hb
        exact hrest hq
  · have h01 : Mem.Frame s.mem (Mem.copy (Mem.fill s.mem p.toNat PGSIZE.toNat 5) p.toNat PGSIZE.toNat c) (PageBytes p) := by
      unfold Mem.fill PageBytes
      rw [Mem.copy_copy_self]
      exact Mem.frame_copy _ _ _ _
    refine (h01.trans hgr.frame).mono fun b hb => ?_
    rcases hb with hb | ⟨q, hq | hq, hqb⟩
    · exact ⟨p, .inr hp, hb⟩
    · exact ⟨q, .inl (hs1.tablePage_iff.mp hq), hqb⟩
    · exact ⟨q, .inr (hmem q hq), hqb⟩

/-- `kalloc` of the head `p` of the free list, the page written with `c`, and `mappages` of it at an
unmapped page `a`: `walk` ran out of pages for a table, or the PTE went to `a`'s entry. -/
theorem mappages_taken_spec (hg : Good s pagetable) (hfl : s.freelist = p :: rest) (c : Nat → UInt8)
    (perm : UInt64) (ha : a.toNat % 4096 = 0) (hva : a < MAXVA) (hnone : leaf s.mem pagetable a = none) :
    ∃ r s', mappages
        { s with mem := Mem.copy (Mem.fill s.mem p.toNat PGSIZE.toNat 5) p.toNat PGSIZE.toNat c, freelist := rest }
        pagetable a PGSIZE p perm = some (r, s') ∧
      ∃ s2, Good s2 pagetable ∧ Taken pagetable p c s s2 ∧
        (r = -1 ∧ s' = s2 ∧ s2.freelist = [] ∨
          r = 0 ∧ ∃ slot, slotOf s2.mem pagetable a = some slot ∧
            s' = { s2 with mem := stPte s2.mem slot (PA2PTE p ||| perm ||| PTE_V) }) := by
  obtain ⟨hg1, hs1⟩ := kalloc_write_spec hg hfl c
  obtain ⟨r, s', hmp, s2, hg2, hgr, hcase⟩ := @mappages_page_spec _ _ _ p perm hg1 ha hva ((hs1.2 a).trans hnone)
  exact ⟨r, s', hmp, s2, hg2, taken_of_grows hg hfl hgr, hcase⟩

/-- A page mapped by the loop: `walk` found `a`'s entry and the PTE of the page written with `c` went
there, with the flags `perm` the run gives to `a`'s page. -/
theorem mapped_page {flags : UInt64 → UInt64} {content : UInt64 → Nat → UInt8} {perm slot : UInt64}
    {c : Nat → UInt8} (hg : Good s pagetable) (ha : a.toNat % 4096 = 0) (hva : a < MAXVA)
    (ht : Taken pagetable p c s s2) (hg2 : Good s2 pagetable)
    (hslot : slotOf s2.mem pagetable a = some slot) (hf : (perm ||| PTE_V).toNat < 1024)
    (hv : (perm ||| PTE_V) &&& PTE_V ≠ 0) (hflags : ∀ va, va.toNat / 4096 = a.toNat / 4096 → flags va = perm)
    (hcontent : ∀ va, va.toNat / 4096 = a.toNat / 4096 → ∀ k < 4096, content va k = c k) :
    Mapped pagetable flags content a.toNat (a.toNat + 4096) s
      { s2 with mem := stPte s2.mem slot (PA2PTE p ||| perm ||| PTE_V) } := by
  obtain ⟨rest, hfl, hsuf⟩ := ht.suffix
  have hp : p ∈ s.freelist := hfl ▸ List.mem_cons_self
  have hp0 := (hg.free.page p hp).1
  have hE : PA2PTE p ||| perm ||| PTE_V = PA2PTE p ||| (perm ||| PTE_V) := UInt64.or_assoc _ _ _
  have hpa : PTE2PA (PA2PTE p ||| perm ||| PTE_V) = p := by rw [hE, PTE2PA_PA2PTE_or hp0 hf]
  have hn := nodeAt_stPte_slot hg2.tree hslot (PA2PTE p ||| perm ||| PTE_V)
  have hleaf := leaf_setLeaf hg2.tree hva hslot (hE ▸ PA2PTE_or_valid p _ hf hv)
  have hm := UInt64.lt_iff_toNat_lt.mp hva
  -- the store is to an entry of a table, whose bytes are not `p`'s
  obtain ⟨-, t, htab, hbytes⟩ := slotOf_facts hg2.tree hslot
  have hslotW : ∀ b, slot.toNat ≤ b ∧ b < slot.toNat + 8 → Region s2 pagetable b := fun b hb => by
    have := hbytes (b - slot.toNat) (by omega)
    rw [show slot.toNat + (b - slot.toNat) = b by omega] at this
    exact ⟨t, .inl htab, this⟩
  refine ⟨?_, ht.kend, hfl ▸ hsuf.trans (List.suffix_cons p rest),
    fun q hq => (tablePage_iff_of_nodeAt hn).mpr (ht.tables q hq),
    fun q hq => ht.new_tables q ((tablePage_iff_of_nodeAt hn).mp hq), fun va hva' h1 h2 => ?_,
    fun va hva' hout => ?_, fun q hq hq' => ?_, ?_⟩
  · rw [hE]
    exact hg2.setLeaf hva hslot hp0 hf hv ht.not_table ht.not_free ht.not_data
  · have hpage : va.toNat / 4096 = a.toNat / 4096 := by omega
    refine ⟨_, by rw [hleaf va hva', if_pos hpage], by rw [hE, PTE_FLAGS_PA2PTE_or p hf, hflags va hpage],
      hpa ▸ hp, fun k hk => ?_⟩
    rw [hpa, hcontent va hpage k hk]
    have hb : PageBytes p (p.toNat + k) := ⟨by omega, by omega⟩
    -- `p` is no table, so the store to the entry left what the loop wrote
    have hnot : ¬ (slot.toNat ≤ p.toNat + k ∧ p.toNat + k < slot.toNat + 8) := fun hw => by
      have hb' := hbytes (p.toNat + k - slot.toNat) (by omega)
      rw [show slot.toNat + (p.toNat + k - slot.toNat) = p.toNat + k by omega] at hb'
      exact ht.not_table (eq_of_pageBytes (hg2.tree.tablePage_aligned htab) hp0 hb' hb ▸ htab)
    show stPte s2.mem slot _ (p.toNat + k) = c k
    rw [frame_stPte s2.mem slot _ _ hnot]
    exact ht.page k hk
  · have hpage : va.toNat / 4096 ≠ a.toNat / 4096 := by omega
    rw [hleaf va hva', if_neg hpage]
    exact ht.leaves va
  · by_cases hqp : q = p
    · subst hqp
      exact .inr ⟨a, hva, le_rfl, by omega, _, by rw [hleaf a hva, if_pos rfl], hpa⟩
    · exact .inl ((tablePage_iff_of_nodeAt hn).mpr (ht.used q hq hqp hq'))
  · refine (ht.frame.trans (frame_stPte s2.mem slot _)).mono fun b hb => ?_
    rcases hb with hb | hb
    · exact hb
    · exact region_of_sub ht.new_tables (fun q hq => hfl ▸ List.mem_cons_of_mem p (hsuf.subset hq)) (hslotW b hb)

/-- `kfree` of the page after `walk` ran out of pages for a table: every leaf as it was, the page
back on the list, every other page it took a table. -/
theorem restored_of_walk_fail {c : Nat → UInt8} (ht : Taken pagetable p c s s2) (hg2 : Good s2 pagetable)
    (hnil : s2.freelist = []) (hk : kfree s2 p = some s4) : Restored pagetable s s4 := by
  obtain ⟨rest, hfl, -⟩ := ht.suffix
  have hp : p ∈ s.freelist := hfl ▸ List.mem_cons_self
  obtain ⟨hg4, hsame⟩ := hg2.kfree hk ht.not_table ht.not_data ht.not_free
  obtain ⟨-, -, -, hfl4, hkend4, hframe4⟩ := kfree_eq_some hk
  rw [hnil] at hfl4
  refine ⟨hg4, hkend4.trans ht.kend, fun va _ => (hsame.2 va).trans (ht.leaves va),
    fun q hq => hsame.tablePage_iff.mpr (ht.tables q hq), fun q hq => ht.new_tables q (hsame.tablePage_iff.mp hq),
    fun q hq => ?_, fun q hq => ?_, ?_⟩
  · rw [hfl4, List.mem_singleton] at hq
    exact hq ▸ hp
  · by_cases hqp : q = p
    · exact .inl (by rw [hfl4, hqp]; exact List.mem_singleton_self p)
    · exact .inr (hsame.tablePage_iff.mpr (ht.used q hq hqp (by rw [hnil]; exact List.not_mem_nil)))
  · exact (ht.frame.trans hframe4).mono fun b hb => hb.elim id fun hb => ⟨p, .inr hp, hb⟩

end Step

/-! ### Runs of the loop -/

section Runs

variable {s0 s s' s'' sf : Phys} {pagetable : UInt64} {flags : UInt64 → UInt64} {content : UInt64 → Nat → UInt8}

theorem Mapped.refl (hg : Good s pagetable) (flags : UInt64 → UInt64) (content : UInt64 → Nat → UInt8) (lo : Nat) :
    Mapped pagetable flags content lo lo s s where
  good := hg
  kend := rfl
  suffix := List.suffix_refl _
  tables _ := id
  new_tables _ := .inl
  fresh _ _ h1 h2 := absurd h2 (by omega)
  others _ _ _ := rfl
  used _ hq hq' := absurd hq hq'
  frame := Mem.Frame.refl _ _

theorem Restored.refl (hg : Good s pagetable) : Restored pagetable s s where
  good := hg
  kend := rfl
  leaves _ _ := rfl
  tables _ := id
  new_tables _ := .inl
  freelist _ := id
  used _ hq := .inl hq
  frame := Mem.Frame.refl _ _

/-- Mapping `[lo, mid)` and then `[mid, hi)` maps `[lo, hi)`. -/
theorem Mapped.trans {lo mid hi : Nat} (h : Mapped pagetable flags content lo mid s s')
    (h' : Mapped pagetable flags content mid hi s' s'') (h1 : lo ≤ mid) (h2 : mid ≤ hi) :
    Mapped pagetable flags content lo hi s s'' := by
  -- below `mid` the second run kept the leaves
  have hkeep : ∀ va < MAXVA, lo ≤ va.toNat → va.toNat < mid → leaf s''.mem pagetable va = leaf s'.mem pagetable va :=
    fun va hva _ hm => h'.others va hva (by omega)
  refine ⟨h'.good, h'.kend.trans h.kend, h'.suffix.trans h.suffix, fun q hq => h'.tables q (h.tables q hq),
    fun q hq => ?_, fun va hva hl hh => ?_, fun va hva hout => ?_, fun q hq hq'' => ?_, ?_⟩
  · rcases h'.new_tables q hq with hq | hq
    · exact h.new_tables q hq
    · exact .inr (h.suffix.subset hq)
  · by_cases hm : va.toNat < mid
    · obtain ⟨e, he, hfl, hp, hz⟩ := h.fresh va hva hl hm
      have hdata : DataPage s'.mem pagetable (PTE2PA e) := ⟨va, hva, e, he, rfl⟩
      refine ⟨e, (hkeep va hva hl hm).trans he, hfl, hp, fun k hk => ?_⟩
      -- a page the first run mapped is data, which the second run does not store to
      rw [h'.frame _ (h.good.not_region_of_data hdata ⟨by omega, by omega⟩)]
      exact hz k hk
    · obtain ⟨e, he, hfl, hp, hz⟩ := h'.fresh va hva (by omega) hh
      exact ⟨e, he, hfl, h.suffix.subset hp, hz⟩
  · rw [h'.others va hva (by omega), h.others va hva (by omega)]
  · by_cases hq' : q ∈ s'.freelist
    · rcases h'.used q hq' hq'' with ht | hm
      · exact .inl ht
      · exact .inr ((mapsIn_split h1 h2).mpr (.inr hm))
    · rcases h.used q hq hq' with ht | hm
      · exact .inl (h'.tables q ht)
      · exact .inr ((mapsIn_split h1 h2).mpr (.inl ((mapsIn_congr hkeep).mpr hm)))
  · exact (h.frame.trans h'.frame).mono fun b hb =>
      hb.elim id (region_of_sub h.new_tables fun q hq => h.suffix.subset hq)

/-- A page a rollback unmaps is one the run mapped, and so was free at its start. -/
theorem Mapped.free_of_mapsIn {lo hi : Nat} {q : UInt64} (hm : Mapped pagetable flags content lo hi s0 s)
    (hr : Restored pagetable s sf) (hq : MapsIn sf pagetable lo hi q) : q ∈ s0.freelist := by
  obtain ⟨va, hva, h1, h2, e, he, rfl⟩ := hq
  obtain ⟨e', he', -, hpf, -⟩ := hm.fresh va hva h1 h2
  rw [hr.leaves va hva, he'] at he
  cases he
  exact hpf

/-- A run over `[lo, hi)`, a failure that keeps the leaves, and the unmapping of `[lo, hi)` give
back everything the run took but the tables. -/
theorem Mapped.restored {lo hi : Nat} (hm : Mapped pagetable flags content lo hi s0 s) (hr : Restored pagetable s sf)
    (hu : Unmapped pagetable lo hi sf s')
    (hun : ∀ va < MAXVA, lo ≤ va.toNat → va.toNat < hi → leaf s0.mem pagetable va = none) :
    Restored pagetable s0 s' := by
  have hreg : ∀ {b}, Region s pagetable b → Region s0 pagetable b :=
    region_of_sub hm.new_tables fun q hq => hm.suffix.subset hq
  refine ⟨hu.good, hu.kend.trans (hr.kend.trans hm.kend), fun va hva => ?_,
    fun q hq => (hu.tables q).mpr (hr.tables q (hm.tables q hq)), fun q hq => ?_, fun q hq => ?_,
    fun q hq => ?_, ?_⟩
  · rw [hu.leaves va hva]
    split_ifs with h
    · exact (hun va hva h.1 h.2).symm
    · exact (hr.leaves va hva).trans (hm.others va hva h)
  · rcases hr.new_tables q ((hu.tables q).mp hq) with h | h
    · exact hm.new_tables q h
    · exact .inr (hm.suffix.subset h)
  · rcases (hu.freed q).mp hq with h | h
    · exact hm.suffix.subset (hr.freelist q h)
    · exact hm.free_of_mapsIn hr h
  · by_cases hq' : q ∈ s.freelist
    · rcases hr.used q hq' with h | h
      · exact .inl ((hu.freed q).mpr (.inl h))
      · exact .inr ((hu.tables q).mpr h)
    · rcases hm.used q hq hq' with h | h
      · exact .inr ((hu.tables q).mpr (hr.tables q h))
      · exact .inl ((hu.freed q).mpr (.inr ((mapsIn_congr fun va hva _ _ => hr.leaves va hva).mpr h)))
  · refine (hm.frame.trans (hr.frame.trans hu.frame)).mono fun b hb => ?_
    rcases hb with hb | hb | hb | ⟨q, hq, hb⟩
    · exact hb
    · exact hreg hb
    · exact hreg (region_of_sub hr.new_tables hr.freelist hb)
    · exact ⟨q, .inr (hm.free_of_mapsIn hr hq), hb⟩

theorem toNat_PGROUNDUP_of_aligned {x : UInt64} (hx : x ≤ MAXVA) (h : x.toNat % 4096 = 0) :
    (PGROUNDUP x).toNat = x.toNat := by
  rw [toNat_PGROUNDUP hx]
  omega

/-- A page the run mapped, with flags that make its PTE a leaf, is one `uvmunmap` may free, also
after a failure that kept the leaves. -/
theorem Mapped.freeable {lo hi : Nat} {va : UInt64} (hm : Mapped pagetable flags content lo hi s0 s)
    (hr : Restored pagetable s sf) (hg0 : Good s0 pagetable) (hva : va < MAXVA) (h1 : lo ≤ va.toNat)
    (h2 : va.toNat < hi) (hperm : flags va ||| PTE_V ≠ PTE_V) : Freeable sf pagetable va := by
  obtain ⟨e, he, hflags, hpf, -⟩ := hm.fresh va hva h1 h2
  have hpage := hg0.free.page _ hpf
  refine ⟨e, (hr.leaves va hva).trans he, by rw [hflags]; exact hperm, ?_, hpage.2.2⟩
  rw [hr.kend, hm.kend]
  exact hpage.2.1

/-- The rollback of `uvmalloc` at page `a`: `uvmdealloc(pagetable, a, oldsz)` unmaps and frees the
pages the loop mapped, which leaves the state as it was before the call, but for new tables. -/
theorem Mapped.rollback {lo a : UInt64} (hm : Mapped pagetable flags content lo.toNat a.toNat s0 s)
    (hr : Restored pagetable s sf) (hg0 : Good s0 pagetable)
    (hun : ∀ va < MAXVA, lo.toNat ≤ va.toNat → va.toNat < a.toNat → leaf s0.mem pagetable va = none)
    (hlo : lo.toNat % 4096 = 0) (ha : a.toNat % 4096 = 0) (hla : lo.toNat ≤ a.toNat) (hva : a ≤ MAXVA)
    (hperm : ∀ va, flags va ||| PTE_V ≠ PTE_V) :
    ∃ r s', uvmdealloc sf pagetable a lo = some (r, s') ∧ Restored pagetable s0 s' := by
  have hlo' : lo ≤ MAXVA := UInt64.le_iff_toNat_le.mpr (le_trans hla (UInt64.le_iff_toNat_le.mp hva))
  have hup := toNat_PGROUNDUP_of_aligned hlo' hlo
  have hup' := toNat_PGROUNDUP_of_aligned hva ha
  -- the pages of `[lo, a)` are the loop's, each mapped by a leaf `uvmunmap` may free
  obtain ⟨s', hd, hu⟩ := uvmdealloc_spec hr.good hva hlo' fun va hva' h1 h2 =>
    hm.freeable hr hg0 hva' (hup ▸ h1) (hup' ▸ h2) (hperm va)
  rw [hup, hup'] at hu
  exact ⟨_, s', hd, hm.restored hr hu hun⟩

end Runs

/-! ### `uvmalloc` -/

/-- The loop of `uvmalloc` from page `a`, having mapped `[lo, a)`: it maps the pages up to
`PGROUNDUP(newsz)` and returns `newsz`, or, when memory runs out at some page, rolls back and
returns `0`.  It never panics. -/
theorem uvmallocLoop_spec {s0 : Phys} {pagetable lo newsz : UInt64} (hg0 : Good s0 pagetable)
    (hlo : lo.toNat % 4096 = 0) (hnew : newsz ≤ MAXVA)
    (hun : ∀ va < MAXVA, lo.toNat ≤ va.toNat → va.toNat < (PGROUNDUP newsz).toNat → leaf s0.mem pagetable va = none) :
    ∀ (n : Nat) (a : UInt64) (s : Phys), (PGROUNDUP newsz).toNat = a.toNat + 4096 * n → a.toNat % 4096 = 0 →
      lo.toNat ≤ a.toNat →
      Mapped pagetable (fun _ => PTE_W ||| PTE_X ||| PTE_R ||| PTE_U) (fun _ _ => 0) lo.toNat a.toNat s0 s →
      ∃ r s', uvmallocLoop pagetable lo newsz a s = some (r, s') ∧
        (r = newsz ∧
            Mapped pagetable (fun _ => PTE_W ||| PTE_X ||| PTE_R ||| PTE_U) (fun _ _ => 0) lo.toNat
              (PGROUNDUP newsz).toNat s0 s' ∨
          r = 0 ∧ Restored pagetable s0 s')
  | 0, a, s, hn, _, _, hm => by
    have hN := toNat_PGROUNDUP hnew
    have hge : ¬ a < newsz := fun h => by
      have := UInt64.lt_iff_toNat_lt.mp h
      omega
    rw [uvmallocLoop, if_neg hge]
    exact ⟨newsz, s, rfl, .inl ⟨rfl, by rw [hn, Nat.mul_zero, Nat.add_zero]; exact hm⟩⟩
  | n + 1, a, s, hn, ha, hla, hm => by
    have hN := toNat_PGROUNDUP hnew
    have hmax := UInt64.le_iff_toNat_le.mp hnew
    rw [toNat_MAXVA] at hmax
    have hlt : a < newsz := UInt64.lt_iff_toNat_lt.mpr (by omega)
    have hva : a < MAXVA := UInt64.lt_iff_toNat_lt.mpr (by rw [toNat_MAXVA]; omega)
    have hnone : leaf s.mem pagetable a = none := (hm.others a hva (by omega)).trans (hun a hva hla (by omega))
    have hun' : ∀ va < MAXVA, lo.toNat ≤ va.toNat → va.toNat < a.toNat → leaf s0.mem pagetable va = none :=
      fun va hva' h1 h2 => hun va hva' h1 (by omega)
    have hperm : ∀ _ : UInt64, PTE_W ||| PTE_X ||| PTE_R ||| PTE_U ||| PTE_V ≠ PTE_V := fun _ => by decide
    have hg := hm.good
    rw [uvmallocLoop, if_pos hlt]
    cases hfl : s.freelist with
    | nil =>
      -- `kalloc` found no page
      obtain ⟨r, s', hd, hres⟩ := hm.rollback (Restored.refl hg) hg0 hun' hlo ha hla (UInt64.le_of_lt hva) hperm
      refine ⟨0, s', ?_, .inr ⟨rfl, hres⟩⟩
      simp [kalloc_nil hfl, hd]
    | cons p rest =>
      have hp : p ∈ s.freelist := hfl ▸ List.mem_cons_self
      obtain ⟨r, s3, hmp, s2, hg2, ht, hcase⟩ :=
        mappages_taken_spec hg hfl (fun _ => 0) (PTE_W ||| PTE_X ||| PTE_R ||| PTE_U) ha hva hnone
      have hp0 : p ≠ 0 := hg.free.ne_zero hp
      rw [kalloc_cons hfl]
      dsimp only
      rw [if_neg hp0]
      -- the `memset` is the copy of a constant, so `hmp` speaks of this call
      split
      · rename_i heq
        cases hmp.symm.trans heq
      rename_i r1 s1' heq
      cases hmp.symm.trans heq
      rcases hcase with ⟨rfl, rfl, hnil⟩ | ⟨rfl, slot, hslot, rfl⟩
      · -- `walk` found no page for a table: `kfree` the page, then roll back
        have hpage := hg.free.page p hp
        obtain ⟨s4, hk⟩ := kfree_isSome (s := s3) hpage.1 (by rw [ht.kend]; exact hpage.2.1) hpage.2.2
        obtain ⟨r', s', hd, hres⟩ := hm.rollback (restored_of_walk_fail ht hg2 hnil hk) hg0 hun' hlo ha hla
          (UInt64.le_of_lt hva) hperm
        refine ⟨0, s', ?_, .inr ⟨rfl, hres⟩⟩
        simp [hk, hd]
      · -- the page is mapped: on to the next
        have hstep := mapped_page hg ha hva ht hg2 hslot
          (show ((PTE_W ||| PTE_X ||| PTE_R ||| PTE_U) ||| PTE_V).toNat < 1024 by decide) (by decide)
          (fun _ _ => rfl) (fun _ _ _ _ => rfl)
        have hnext := toNat_add_PGSIZE hva
        rw [← hnext] at hstep
        obtain ⟨r', s', hrun, hres⟩ := uvmallocLoop_spec hg0 hlo hnew hun n (a + PGSIZE) _ (by omega) (by omega)
          (by omega) (hm.trans hstep hla (by omega))
        refine ⟨r', s', ?_, hres⟩
        simpa using hrun

/-- `uvmalloc(pagetable, oldsz, newsz)`, for `oldsz ≤ newsz ≤ MAXVA` and the pages of
`[PGROUNDUP(oldsz), PGROUNDUP(newsz))` unmapped, never panics.  It returns `newsz` with those pages
mapped `PTE_W|PTE_X|PTE_R|PTE_U` to zero-filled pages that were free (distinct, as `Good` has it)
and every other leaf as it was; or `0`, having given back every page it took but the tables `walk`
added, with every leaf as it was. -/
theorem uvmalloc_spec {s : Phys} {pagetable oldsz newsz : UInt64} (hg : Good s pagetable) (hle : oldsz ≤ newsz)
    (hnew : newsz ≤ MAXVA)
    (hun : ∀ va < MAXVA, (PGROUNDUP oldsz).toNat ≤ va.toNat → va.toNat < (PGROUNDUP newsz).toNat →
      leaf s.mem pagetable va = none) :
    ∃ r s', uvmalloc s pagetable oldsz newsz = some (r, s') ∧
      (r = newsz ∧
          Mapped pagetable (fun _ => PTE_W ||| PTE_X ||| PTE_R ||| PTE_U) (fun _ _ => 0) (PGROUNDUP oldsz).toNat
            (PGROUNDUP newsz).toNat s s' ∨
        r = 0 ∧ Restored pagetable s s') := by
  have hold : oldsz ≤ MAXVA := UInt64.le_trans hle hnew
  have ho := toNat_PGROUNDUP hold
  have hn := toNat_PGROUNDUP hnew
  have hle' := UInt64.le_iff_toNat_le.mp hle
  unfold uvmalloc
  rw [if_neg (UInt64.not_lt.mpr hle)]
  -- the loop starts at `PGROUNDUP(oldsz)`, a whole number of pages below `PGROUNDUP(newsz)`
  exact uvmallocLoop_spec hg (by rw [ho]; omega) hnew hun
    (((PGROUNDUP newsz).toNat - (PGROUNDUP oldsz).toNat) / 4096) _ s (by rw [ho, hn]; omega) (by rw [ho]; omega)
    le_rfl (Mapped.refl hg _ _ _)

/-- In zeroed memory every PTE is `0`. -/
theorem ldPte_of_zero {m : Nat → UInt8} (hm : ∀ b, m b = 0) (a : UInt64) : ldPte m a = 0 := by
  simp [ldPte, Mem.load, hm]

end Xv6Sched.Vm
