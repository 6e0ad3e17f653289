import Mathlib
import Xv6Sched.Vm.Alloc
import Xv6Sched.Vm.Copy

/-!
# Xv6Sched.Vm.Fork — `uvmcopy`: the child's memory as a copy of the parent's

`fork` gives the child a copy of the parent's user memory with `uvmcopy(old, new, sz)`: for each
page below `sz` it takes a page from `kalloc`, copies the parent's page into it and maps it in the
child's table with the parent's flags.  Both tables live in the one physical memory.  The child's
tree grows as under `uvmalloc` (`Mapped` of `Xv6Sched.Vm.Alloc`, with the parent's flags and bytes,
`copyFlags` and `copyContent`, in place of `uvmalloc`'s), and a failure at any page is rolled back
by `uvmunmap` (`Mapped.rollback_copy`).  The parent's tree is never stored to as long as the
child's tables lie apart from the parent's tables and pages (`Apart`, as for a table `uvmcreate`
just allocated): everything the loop stores to lies in the child's `Region` (`Apart.not_region`).

`uvmcopy` never panics on a parent whose pages below `sz` are all mapped: it returns `0` with each
page mapped in the child to a page that was free and now holds the parent's bytes, or `-1` with
every page it took given back but the tables, and the parent's tree and pages unchanged either way
(`uvmcopy_spec`).  What a process sees of its memory is what `copyin` reads, and that depends only
on the translation of each page and on the bytes there (`copyinLoop_congr`).  So after `uvmcopy`
the parent reads every range as before, and on success the child reads every range below `sz` as
the parent did (`uvmcopy_copyin`).
-/

namespace Xv6Sched.Vm

/-! ### Flags -/

/-- The flags of a valid PTE have the valid bit set already. -/
theorem PTE_FLAGS_or_V {e : UInt64} (hv : e &&& PTE_V ≠ 0) : PTE_FLAGS e ||| PTE_V = PTE_FLAGS e := by
  rw [and_PTE_V_ne_zero] at hv
  apply UInt64.toNat_inj.mp
  have hm : (0x3FF : UInt64).toNat = 2 ^ 10 - 1 := rfl
  have h1 : PTE_V.toNat = 1 := rfl
  rw [UInt64.toNat_or, PTE_FLAGS, UInt64.toNat_and, hm, Nat.and_two_pow_sub_one_eq_mod, h1]
  -- an odd number has its low bit set
  obtain ⟨a, ha⟩ : ∃ a, e.toNat % 2 ^ 10 = 2 ^ 1 * a + 1 := ⟨e.toNat % 2 ^ 10 / 2, by omega⟩
  rw [ha, Nat.two_pow_add_eq_or_of_lt (by norm_num), Nat.or_assoc, Nat.or_self]

theorem toNat_PTE_FLAGS_or_V (e : UInt64) : (PTE_FLAGS e ||| PTE_V).toNat < 1024 := by
  rw [UInt64.toNat_or, PTE_FLAGS, UInt64.toNat_and]
  have h : e.toNat &&& (0x3FF : UInt64).toNat < 2 ^ 10 := Nat.lt_of_le_of_lt Nat.and_le_right (by decide)
  exact Nat.or_lt_two_pow h (by decide)

/-- `mappages` makes every PTE it stores valid. -/
theorem or_PTE_V_valid (f : UInt64) : (f ||| PTE_V) &&& PTE_V ≠ 0 := by
  have h1 : PTE_V.toNat = 1 := rfl
  rw [and_PTE_V_ne_zero, UInt64.toNat_or, h1]
  have hx : f.toNat = 2 ^ 1 * (f.toNat / 2) ||| f.toNat % 2 := by
    rw [← Nat.two_pow_add_eq_or_of_lt (Nat.mod_lt _ (by norm_num))]
    omega
  have hb : f.toNat % 2 ||| 1 = 1 := by
    rcases Nat.mod_two_eq_zero_or_one f.toNat with h | h <;> rw [h] <;> rfl
  rw [hx, Nat.or_assoc, hb, ← Nat.two_pow_add_eq_or_of_lt (by norm_num : 1 < 2 ^ 1)]
  omega

/-- The user bit is one of the flags. -/
theorem PTE_FLAGS_and_U (e : UInt64) : PTE_FLAGS e &&& PTE_U = e &&& PTE_U := by
  rw [PTE_FLAGS, UInt64.and_assoc]
  rfl

/-! ### Leaves and `walkaddr` -/

section Leaves

variable {s : Phys} {pagetable va e : UInt64}

theorem leaf_valid {m : Nat → UInt8} (h : leaf m pagetable va = some e) : e &&& PTE_V ≠ 0 := by
  obtain ⟨a, -, hv⟩ := leaf_eq_some.mp h
  exact (validPte_eq_some.mp hv).2

/-- `walk` without allocation at a page with a leaf: the checks `uvmcopy` makes of it pass. -/
theorem walk_of_leaf (hok : TreeOk s.mem pagetable) (hva : va < MAXVA) (hleaf : leaf s.mem pagetable va = some e) :
    ∃ slot, walk s pagetable va false = some (slot, s) ∧ slot ≠ 0 ∧ ldPte s.mem slot = e ∧ e &&& PTE_V ≠ 0 := by
  obtain ⟨slot, hs, hv⟩ := leaf_eq_some.mp hleaf
  obtain ⟨hld, hvalid⟩ := validPte_eq_some.mp hv
  exact ⟨slot, walk_false_eq hva hs, (slotOf_facts hok hs).1, hld, hvalid⟩

/-- `walkaddr` reads the leaf of `va` only: its page, if the user bit is set. -/
theorem walkaddr_eq_leaf (hok : TreeOk s.mem pagetable) (hva : va < MAXVA) :
    walkaddr s pagetable va =
      ((leaf s.mem pagetable va).map fun e => if e &&& PTE_U = 0 then 0 else PTE2PA e).getD 0 := by
  rw [walkaddr_eq, if_neg (UInt64.not_le.mpr hva), walkFrom_false_eq]
  unfold leaf
  cases hs : slotOf s.mem pagetable va with
  | none => simp
  | some slot =>
    rw [Option.getD_some, if_neg (slotOf_facts hok hs).1, Option.bind_some, validPte]
    by_cases hv : ldPte s.mem slot &&& PTE_V = 0
    · simp [hv]
    · simp [hv]

theorem walkaddr_of_leaf (hok : TreeOk s.mem pagetable) (hva : va < MAXVA) (hleaf : leaf s.mem pagetable va = some e) :
    walkaddr s pagetable va = if e &&& PTE_U = 0 then 0 else PTE2PA e := by
  rw [walkaddr_eq_leaf hok hva, hleaf]
  rfl

/-- A page `walkaddr` finds is the page of a leaf. -/
theorem leaf_of_walkaddr (hok : TreeOk s.mem pagetable) (h : walkaddr s pagetable va ≠ 0) :
    ∃ e, leaf s.mem pagetable va = some e ∧ walkaddr s pagetable va = PTE2PA e := by
  have hva := walkaddr_lt_MAXVA h
  rw [walkaddr_eq_leaf hok hva] at h ⊢
  cases hl : leaf s.mem pagetable va with
  | none => simp [hl] at h
  | some e =>
    by_cases hu : e &&& PTE_U = 0
    · simp [hl, hu] at h
    · exact ⟨e, rfl, by simp [hu]⟩

/-- A memory with the same tree has the same translations. -/
theorem SameTree.same_walkaddr {s' : Phys} (h : SameTree s.mem s'.mem pagetable) (hok : TreeOk s.mem pagetable)
    (va : UInt64) : walkaddr s' pagetable va = walkaddr s pagetable va := by
  by_cases hva : va < MAXVA
  · rw [walkaddr_eq_leaf (h.treeOk hok) hva, walkaddr_eq_leaf hok hva, h.2 va]
  · -- above `MAXVA` there is no translation
    have h0 : ∀ t : Phys, walkaddr t pagetable va = 0 := fun t => by
      rw [walkaddr_eq, if_pos (UInt64.not_lt.mp hva)]
    rw [h0, h0]

end Leaves

/-! ### What the child's pages hold -/

/-- The flags of the parent's leaf of `va`, which `uvmcopy` gives the child's page. -/
def copyFlags (m : Nat → UInt8) (old va : UInt64) : UInt64 := ((leaf m old va).map PTE_FLAGS).getD 0

/-- Byte `k` of the parent's page of `va`, which `uvmcopy` copies into the child's. -/
def copyContent (m : Nat → UInt8) (old va : UInt64) (k : Nat) : UInt8 :=
  ((leaf m old va).map fun e => m ((PTE2PA e).toNat + k)).getD 0

section Copies

variable {m : Nat → UInt8} {old va e : UInt64}

theorem copyFlags_of_leaf (h : leaf m old va = some e) : copyFlags m old va = PTE_FLAGS e := by
  rw [copyFlags, h]
  rfl

theorem copyContent_of_leaf (h : leaf m old va = some e) (k : Nat) :
    copyContent m old va k = m ((PTE2PA e).toNat + k) := by
  rw [copyContent, h]
  rfl

/-- A page the parent may free has flags that make the child's PTE a leaf. -/
theorem Freeable.copyFlags_ne {s : Phys} (h : Freeable s old va) : copyFlags s.mem old va ||| PTE_V ≠ PTE_V := by
  obtain ⟨e, he, hflags, -⟩ := h
  rw [copyFlags_of_leaf he, PTE_FLAGS_or_V (leaf_valid he)]
  exact hflags

end Copies

/-! ### The parent's tree, apart from the child's -/

/-- The child's tables are neither tables nor pages of the parent. -/
structure Apart (s : Phys) (old new : UInt64) : Prop where
  table : ∀ q, TablePage s.mem new q → ¬ TablePage s.mem old q
  data : ∀ q, TablePage s.mem new q → ¬ DataPage s.mem old q

section Parent

variable {s s' : Phys} {old new : UInt64}

/-- A table or page of the parent lies outside what the child's tree may store to. -/
theorem Apart.not_region (hap : Apart s old new) (hgo : Good s old) (hgn : Good s new) {q : UInt64} {b : Nat}
    (hq : TablePage s.mem old q ∨ DataPage s.mem old q) (hb : PageBytes q b) : ¬ Region s new b := by
  rintro ⟨q', hq', hb'⟩
  have hqa : q.toNat % 4096 = 0 :=
    hq.elim hgo.tree.tablePage_aligned fun ⟨_, _, e, _, he⟩ => he ▸ PTE2PA_aligned e
  have hqa' : q'.toNat % 4096 = 0 := hq'.elim hgn.tree.tablePage_aligned fun h => (hgn.free.page q' h).1
  obtain rfl := eq_of_pageBytes hqa hqa' hb hb'
  rcases hq' with ht | hf
  · rcases hq with h | h
    · exact hap.table q ht h
    · exact hap.data q ht h
  · rcases hq with h | h
    · exact hgo.free_table q hf h
    · exact hgo.free_data q hf h

/-- The parent's invariant in a state with the same tree and only pages that were free. -/
theorem Good.of_sameTree {pagetable : UInt64} (hg : Good s pagetable) (hs : SameTree s.mem s'.mem pagetable)
    (hfree : FreeOk s') (hsub : ∀ q ∈ s'.freelist, q ∈ s.freelist) : Good s' pagetable where
  tree := hs.treeOk hg.tree
  free := hfree
  free_table q hq ht := hg.free_table q (hsub q hq) (hs.tablePage_iff.mp ht)
  free_data q hq hd := hg.free_data q (hsub q hq) (hs.dataPage_iff.mp hd)
  data_table q hd ht := hg.data_table q (hs.dataPage_iff.mp hd) (hs.tablePage_iff.mp ht)
  data_inj va va' e e' hva hva' he he' :=
    hg.data_inj va va' e e' hva hva' ((hs.2 va).symm.trans he) ((hs.2 va').symm.trans he')

/-- Stores within the child's region keep the parent's tree and pages; with pages taken only from
the free list, they keep the parent's invariant. -/
theorem Apart.kept (hap : Apart s old new) (hgo : Good s old) (hgn : Good s new)
    (hf : Mem.Frame s.mem s'.mem (Region s new)) (hfree : FreeOk s') (hsub : ∀ q ∈ s'.freelist, q ∈ s.freelist) :
    Good s' old ∧ SameTree s.mem s'.mem old ∧
      ∀ q b, DataPage s.mem old q → PageBytes q b → s'.mem b = s.mem b := by
  have hsame : SameTree s.mem s'.mem old :=
    sameTree_of_frame hgo.tree hf fun q b hq hb => hap.not_region hgo hgn (.inl hq) hb
  exact ⟨hgo.of_sameTree hsame hfree hsub, hsame, fun q b hq hb => hf b (hap.not_region hgo hgn (.inr hq) hb)⟩

end Parent

/-! ### The loop -/

/-- `err:` of `uvmcopy` at page `i`: `uvmunmap(new, 0, i / PGSIZE, 1)` unmaps and frees the pages
copied so far, which leaves the state as it was before the call, but for new tables. -/
theorem Mapped.rollback_copy {s0 s sf : Phys} {new i : UInt64} {flags : UInt64 → UInt64}
    {content : UInt64 → Nat → UInt8} (hm : Mapped new flags content 0 i.toNat s0 s) (hr : Restored new s sf)
    (hg0 : Good s0 new) (hun : ∀ va < MAXVA, va.toNat < i.toNat → leaf s0.mem new va = none)
    (hi : i.toNat % 4096 = 0) (hva : i ≤ MAXVA)
    (hperm : ∀ va < MAXVA, va.toNat < i.toNat → flags va ||| PTE_V ≠ PTE_V) :
    ∃ s', uvmcopyErr new i sf = some (-1, s') ∧ Restored new s0 s' := by
  have hmax := UInt64.le_iff_toNat_le.mp hva
  -- `i / PGSIZE` pages from `0` are the range below `i`
  have hn : (0 : UInt64).toNat + (i / PGSIZE).toNat * 4096 = i.toNat := by
    rw [UInt64.toNat_div, toNat_PGSIZE, UInt64.toNat_zero]
    omega
  obtain ⟨s', hrun, hu⟩ := @uvmunmap_spec sf new 0 (i / PGSIZE) hr.good rfl (by rw [hn]; exact hmax)
    fun va hva' _ h2 => by
      rw [hn] at h2
      exact hm.freeable hr hg0 hva' (Nat.zero_le _) h2 (hperm va hva' h2)
  rw [hn, UInt64.toNat_zero] at hu
  exact ⟨s', by simp [uvmcopyErr, hrun], hm.restored hr hu fun va hva' _ h2 => hun va hva' h2⟩

/-- The loop of `uvmcopy` from page `i`, having copied `[0, i)`: it copies the pages up to
`PGROUNDUP(sz)` and returns `0`, or, when memory runs out at some page, rolls back and returns
`-1`.  It never panics. -/
theorem uvmcopyLoop_spec {s0 : Phys} {old new sz : UInt64} (hgo : Good s0 old) (hgn : Good s0 new)
    (hap : Apart s0 old new) (hsz : sz ≤ MAXVA)
    (hold : ∀ va < MAXVA, va.toNat < (PGROUNDUP sz).toNat → Freeable s0 old va)
    (hnew : ∀ va < MAXVA, va.toNat < (PGROUNDUP sz).toNat → leaf s0.mem new va = none) :
    ∀ (n : Nat) (i : UInt64) (s : Phys), (PGROUNDUP sz).toNat = i.toNat + 4096 * n → i.toNat % 4096 = 0 →
      Mapped new (copyFlags s0.mem old) (copyContent s0.mem old) 0 i.toNat s0 s →
      ∃ r s', uvmcopyLoop old new sz i s = some (r, s') ∧
        (r = 0 ∧ Mapped new (copyFlags s0.mem old) (copyContent s0.mem old) 0 (PGROUNDUP sz).toNat s0 s' ∨
          r = -1 ∧ Restored new s0 s')
  | 0, i, s, hn, _, hm => by
    have hN := toNat_PGROUNDUP hsz
    have hge : ¬ i < sz := fun h => by
      have := UInt64.lt_iff_toNat_lt.mp h
      omega
    rw [uvmcopyLoop, if_neg hge]
    exact ⟨0, s, rfl, .inl ⟨rfl, by rw [hn, Nat.mul_zero, Nat.add_zero]; exact hm⟩⟩
  | n + 1, i, s, hn, hi, hm => by
    have hN := toNat_PGROUNDUP hsz
    have hmax := UInt64.le_iff_toNat_le.mp hsz
    rw [toNat_MAXVA] at hmax
    have hlt : i < sz := UInt64.lt_iff_toNat_lt.mpr (by omega)
    have hva : i < MAXVA := UInt64.lt_iff_toNat_lt.mpr (by rw [toNat_MAXVA]; omega)
    have hg := hm.good
    -- the parent's leaf of `i` is as it was, and the child's is still unset
    obtain ⟨-, hso, hpages⟩ := hap.kept hgo hgn hm.frame hg.free fun q hq => hm.suffix.subset hq
    obtain ⟨e, he0, -, -, -⟩ := hold i hva (by omega)
    obtain ⟨slot, hwalk, hne, hld, hvalid⟩ := walk_of_leaf (hso.treeOk hgo.tree) hva ((hso.2 i).trans he0)
    have hnone : leaf s.mem new i = none := (hm.others i hva (by omega)).trans (hnew i hva (by omega))
    have hun : ∀ va < MAXVA, va.toNat < i.toNat → leaf s0.mem new va = none :=
      fun va hva' h => hnew va hva' (by omega)
    have hperm : ∀ va < MAXVA, va.toNat < i.toNat → copyFlags s0.mem old va ||| PTE_V ≠ PTE_V :=
      fun va hva' h => (hold va hva' (by omega)).copyFlags_ne
    rw [uvmcopyLoop, if_pos hlt]
    split
    · rename_i h
      rw [hwalk] at h
      cases h
    rename_i h
    rw [hwalk] at h
    cases h
    rw [if_neg hne, if_neg (by rw [hld]; exact hvalid)]
    simp only [hld]
    cases hfl : s.freelist with
    | nil =>
      -- `kalloc` found no page
      obtain ⟨s', hd, hres⟩ := hm.rollback_copy (Restored.refl hg) hgn hun hi (UInt64.le_of_lt hva) hperm
      refine ⟨-1, s', ?_, .inr ⟨rfl, hres⟩⟩
      simp [kalloc_nil hfl, hd]
    | cons p rest =>
      have hp : p ∈ s.freelist := hfl ▸ List.mem_cons_self
      have hp0 : p ≠ 0 := hg.free.ne_zero hp
      -- the bytes copied are the parent's: its page is not `p`, which was free, and was not stored to
      have hdata : DataPage s0.mem old (PTE2PA e) := ⟨i, hva, e, he0, rfl⟩
      have hbytes : ∀ k < 4096, Mem.fill s.mem p.toNat PGSIZE.toNat 5 ((PTE2PA e).toNat + k) =
          s0.mem ((PTE2PA e).toNat + k) := by
        intro k hk
        have hb : PageBytes (PTE2PA e) ((PTE2PA e).toNat + k) := ⟨by omega, by omega⟩
        have hnp : ¬ PageBytes p ((PTE2PA e).toNat + k) := fun hb' => hgo.free_data p (hm.suffix.subset hp)
          (eq_of_pageBytes (PTE2PA_aligned e) (hg.free.page p hp).1 hb hb' ▸ hdata)
        unfold Mem.fill
        rw [Mem.copy_of_not_mem (by unfold PageBytes at hnp; rw [toNat_PGSIZE]; omega)]
        exact hpages _ _ hdata hb
      obtain ⟨r, s3, hmp, s2, hg2, ht, hcase⟩ := mappages_taken_spec hg hfl
        (fun k => Mem.fill s.mem p.toNat PGSIZE.toNat 5 ((PTE2PA e).toNat + k)) (PTE_FLAGS e) hi hva hnone
      rw [kalloc_cons hfl]
      dsimp only
      rw [if_neg hp0]
      split
      · rename_i heq
        rw [hmp] at heq
        cases heq
      rename_i r1 s1' heq
      rw [hmp] at heq
      cases heq
      rcases hcase with ⟨rfl, rfl, hnil⟩ | ⟨rfl, slot', hslot, rfl⟩
      · -- `walk` found no page for a table: `kfree` the page, then roll back
        have hpage := hg.free.page p hp
        obtain ⟨s4, hk⟩ := kfree_isSome (s := s3) hpage.1 (by rw [ht.kend]; exact hpage.2.1) hpage.2.2
        obtain ⟨s', hd, hres⟩ := hm.rollback_copy (restored_of_walk_fail ht hg2 hnil hk) hgn hun hi
          (UInt64.le_of_lt hva) hperm
        refine ⟨-1, s', ?_, .inr ⟨rfl, hres⟩⟩
        simp [hk, hd]
      · -- the page is mapped with the parent's flags and bytes: on to the next
        have hstep : Mapped new (copyFlags s0.mem old) (copyContent s0.mem old) i.toNat (i.toNat + 4096) s _ :=
          mapped_page hg hi hva ht hg2 hslot (toNat_PTE_FLAGS_or_V e) (or_PTE_V_valid _)
          (fun va h => copyFlags_of_leaf ((leaf_of_page h).trans he0))
          (fun va h k hk => by rw [copyContent_of_leaf ((leaf_of_page h).trans he0)]; exact (hbytes k hk).symm)
        have hnext := toNat_add_PGSIZE hva
        rw [← hnext] at hstep
        obtain ⟨r', s', hrun, hres⟩ := uvmcopyLoop_spec hgo hgn hap hsz hold hnew n (i + PGSIZE) _ (by omega)
          (by omega) (hm.trans hstep (Nat.zero_le _) (by omega))
        refine ⟨r', s', ?_, hres⟩
        simpa using hrun

/-! ### A parent with one page -/

/-- The PTE of the parent's page `0`: physical page `0x4000`, readable and writable by the user. -/
def onePagePte : UInt64 := PA2PTE 0x4000 ||| PTE_R ||| PTE_W ||| PTE_U ||| PTE_V

/-- A parent whose table at `0x1000` maps its one page `0` to `0x4000` through tables at `0x2000`
and `0x3000`; an empty child table at `0x5000`; three free pages, and `end` at `0x1000`. -/
def onePage : Phys :=
  ⟨stPte (stPte (stPte (fun _ => 0) 0x1000 (PA2PTE 0x2000 ||| PTE_V)) 0x2000 (PA2PTE 0x3000 ||| PTE_V)) 0x3000
    onePagePte, [0x6000, 0x7000, 0x8000], 0x1000⟩

section OnePage

/-- The three PTEs are the only ones set. -/
theorem ldPte_onePage {a : UInt64} (ha : a.toNat % 8 = 0) :
    ldPte onePage.mem a =
      if a = 0x3000 then onePagePte
      else if a = 0x2000 then PA2PTE 0x3000 ||| PTE_V
      else if a = 0x1000 then PA2PTE 0x2000 ||| PTE_V else 0 := by
  -- a store to another aligned PTE leaves this one
  have hst : ∀ (m : Nat → UInt8) (c e : UInt64), c.toNat % 8 = 0 → a ≠ c → ldPte (stPte m c e) a = ldPte m a := by
    intro m c e hc hne
    have hne' : a.toNat ≠ c.toNat := fun h => hne (UInt64.toNat_inj.mp h)
    exact ldPte_of_frame (frame_stPte m c e) fun j hj hw => by omega
  simp only [onePage]
  split_ifs with h3 h2 h1
  · rw [h3, ldPte_stPte]
  · rw [hst _ _ _ (by decide) h3, h2, ldPte_stPte]
  · rw [hst _ _ _ (by decide) h3, hst _ _ _ (by decide) h2, h1, ldPte_stPte]
  · rw [hst _ _ _ (by decide) h3, hst _ _ _ (by decide) h2, hst _ _ _ (by decide) h1]
    exact ldPte_of_zero (fun _ => rfl) a

theorem slot_eq_iff {t i c : UInt64} (ht : t.toNat % 4096 = 0) (hi : i.toNat < 512) (hc : c.toNat % 4096 = 0) :
    t + 8 * i = c ↔ i = 0 ∧ t = c := by
  rw [← UInt64.toNat_inj, toNat_slot ht hi, ← UInt64.toNat_inj, ← UInt64.toNat_inj, UInt64.toNat_zero]
  omega

/-- Only the first entry of each table is set. -/
theorem validPte_onePage_of_ne {t i : UInt64} (ht : t.toNat % 4096 = 0) (hi : i.toNat < 512) (h0 : i ≠ 0) :
    validPte onePage.mem (t + 8 * i) = none := by
  have h8 : (t + 8 * i).toNat % 8 = 0 := by
    rw [toNat_slot ht hi]
    omega
  have hne : ∀ c : UInt64, c.toNat % 4096 = 0 → t + 8 * i ≠ c := fun c hc h => h0 ((slot_eq_iff ht hi hc).mp h).1
  apply validPte_zero
  rw [ldPte_onePage h8, if_neg (hne _ (by decide)), if_neg (hne _ (by decide)), if_neg (hne _ (by decide))]

theorem child_onePage_root : child onePage.mem (0x1000 + 8 * 0) = some 0x2000 := by decide

theorem child_onePage_l1 : child onePage.mem (0x2000 + 8 * 0) = some 0x3000 := by decide

/-- The parent's level-1 table is the one under entry `0` of its root. -/
theorem nodeAt_onePage_l1 {i2 : UInt64} (hi2 : i2.toNat < 512) :
    nodeAt onePage.mem 0x1000 (.l1 i2) = if i2 = 0 then some 0x2000 else none := by
  show child onePage.mem (0x1000 + 8 * i2) = _
  by_cases h : i2 = 0
  · rw [h, child_onePage_root, if_pos rfl]
  · rw [if_neg h, child, validPte_onePage_of_ne (by decide) hi2 h, Option.map_none]

/-- The parent's level-0 table is the one under entry `0` of its level-1 table. -/
theorem nodeAt_onePage_l0 {i2 i1 : UInt64} (hi2 : i2.toNat < 512) (hi1 : i1.toNat < 512) :
    nodeAt onePage.mem 0x1000 (.l0 i2 i1) = if i2 = 0 ∧ i1 = 0 then some 0x3000 else none := by
  rw [nodeAt_l0, nodeAt_onePage_l1 hi2]
  by_cases h : i2 = 0
  · rw [if_pos h, Option.bind_some]
    by_cases h' : i1 = 0
    · rw [h', child_onePage_l1, if_pos ⟨h, rfl⟩]
    · rw [if_neg fun h'' => h' h''.2, child, validPte_onePage_of_ne (by decide) hi1 h', Option.map_none]
  · rw [if_neg h, if_neg fun h'' => h h''.1, Option.bind_none]

/-- The child's table is its root alone. -/
theorem nodeAt_onePage_new {n : Node} (hn : n.Valid) : nodeAt onePage.mem 0x5000 n = if n = .root then some 0x5000 else none := by
  -- no entry of the root is set
  have hroot : ∀ i : UInt64, i.toNat < 512 → child onePage.mem (0x5000 + 8 * i) = none := fun i hi => by
    by_cases h : i = 0
    · rw [h]
      decide
    · rw [child, validPte_onePage_of_ne (by decide) hi h, Option.map_none]
  cases n with
  | root => rw [if_pos rfl]; rfl
  | l1 i2 =>
    rw [if_neg Node.noConfusion]
    exact hroot i2 hn
  | l0 i2 i1 =>
    rw [if_neg Node.noConfusion, nodeAt_l0]
    show (child onePage.mem (0x5000 + 8 * i2)).bind _ = _
    rw [hroot i2 hn.1, Option.bind_none]

/-- The parent's tables, each at its node. -/
theorem nodeAt_onePage_old {n : Node} (hn : n.Valid) {q : UInt64} (h : nodeAt onePage.mem 0x1000 n = some q) :
    n = .root ∧ q = 0x1000 ∨ n = .l1 0 ∧ q = 0x2000 ∨ n = .l0 0 0 ∧ q = 0x3000 := by
  cases n with
  | root => exact .inl ⟨rfl, (Option.some.inj h).symm⟩
  | l1 i2 =>
    rw [nodeAt_onePage_l1 hn] at h
    split_ifs at h with h0
    exact .inr (.inl ⟨by rw [h0], (Option.some.inj h).symm⟩)
  | l0 i2 i1 =>
    rw [nodeAt_onePage_l0 hn.1 hn.2] at h
    split_ifs at h with h0
    exact .inr (.inr ⟨by rw [h0.1, h0.2], (Option.some.inj h).symm⟩)

theorem tablePage_onePage_old {q : UInt64} (h : TablePage onePage.mem 0x1000 q) :
    q = 0x1000 ∨ q = 0x2000 ∨ q = 0x3000 := by
  obtain ⟨n, hn, hq⟩ := h
  rcases nodeAt_onePage_old hn hq with ⟨-, rfl⟩ | ⟨-, rfl⟩ | ⟨-, rfl⟩
  · exact .inl rfl
  · exact .inr (.inl rfl)
  · exact .inr (.inr rfl)

/-- The parent's one leaf is that of page `0`. -/
theorem leaf_onePage_old {va : UInt64} (hva : va < MAXVA) :
    leaf onePage.mem 0x1000 va = if va.toNat < 4096 then some onePagePte else none := by
  have hm := UInt64.lt_iff_toNat_lt.mp hva
  rw [toNat_MAXVA] at hm
  have h2 := toNat_PX 2 (by norm_num) va
  have h1 := toNat_PX 1 (by norm_num) va
  have h0 := toNat_PX 0 (by norm_num) va
  norm_num at h2 h1 h0
  have hz : ∀ x : UInt64, x = 0 ↔ x.toNat = 0 := fun x => by rw [← UInt64.toNat_inj, UInt64.toNat_zero]
  unfold leaf slotOf
  rw [nodeAt_onePage_l0 (PX_lt 2 va) (PX_lt 1 va)]
  by_cases hlow : va.toNat < 4096
  · -- page `0`: every index of the descent is `0`
    have e2 : PX 2 va = 0 := (hz _).mpr (by omega)
    have e1 : PX 1 va = 0 := (hz _).mpr (by omega)
    have e0 : PX 0 va = 0 := (hz _).mpr (by omega)
    rw [if_pos ⟨e2, e1⟩, if_pos hlow, Option.map_some, Option.bind_some, e0]
    decide
  · rw [if_neg hlow]
    by_cases h21 : PX 2 va = 0 ∧ PX 1 va = 0
    · -- the level-0 table is reached, at an entry other than the first
      have e0 : PX 0 va ≠ 0 := fun e => by
        have := (hz _).mp e
        have := (hz _).mp h21.1
        have := (hz _).mp h21.2
        omega
      rw [if_pos h21, Option.map_some, Option.bind_some]
      exact validPte_onePage_of_ne (by decide) (PX_lt 0 va) e0
    · rw [if_neg h21, Option.map_none, Option.bind_none]

theorem dataPage_onePage_old {q : UInt64} (h : DataPage onePage.mem 0x1000 q) : q = 0x4000 := by
  obtain ⟨va, hva, e, he, rfl⟩ := h
  rw [leaf_onePage_old hva] at he
  split_ifs at he
  cases he
  decide

theorem leaf_onePage_new (va : UInt64) : leaf onePage.mem 0x5000 va = none := by
  unfold leaf slotOf
  rw [nodeAt_onePage_new (Node.valid_l0 va), if_neg Node.noConfusion, Option.map_none, Option.bind_none]

theorem tablePage_onePage_new {q : UInt64} (h : TablePage onePage.mem 0x5000 q) : q = 0x5000 := by
  obtain ⟨n, hn, hq⟩ := h
  rw [nodeAt_onePage_new hn] at hq
  split_ifs at hq
  exact (Option.some.inj hq).symm

theorem freeOk_onePage : FreeOk onePage where
  nodup := by
    show ([0x6000, 0x7000, 0x8000] : List UInt64).Nodup
    decide
  page p hp := by
    change p ∈ [0x6000, 0x7000, 0x8000] at hp
    simp only [List.mem_cons, List.not_mem_nil, or_false] at hp
    rcases hp with rfl | rfl | rfl <;> exact ⟨by decide, by decide, by decide⟩
  kend_pos := by decide

theorem good_onePage_old : Good onePage 0x1000 where
  tree :=
    { root_aligned := by decide
      ne_zero := fun n q hn hq => by
        rcases nodeAt_onePage_old hn hq with ⟨-, rfl⟩ | ⟨-, rfl⟩ | ⟨-, rfl⟩ <;> decide
      inj := fun n n' q hn hn' hq hq' => by
        rcases nodeAt_onePage_old hn hq with ⟨rfl, rfl⟩ | ⟨rfl, rfl⟩ | ⟨rfl, rfl⟩ <;>
          rcases nodeAt_onePage_old hn' hq' with ⟨rfl, h⟩ | ⟨rfl, h⟩ | ⟨rfl, h⟩ <;>
          first | rfl | exact absurd h (by decide) }
  free := freeOk_onePage
  free_table q hq ht := by
    rcases tablePage_onePage_old ht with rfl | rfl | rfl <;> exact absurd hq (by decide)
  free_data q hq hd := by
    rw [dataPage_onePage_old hd] at hq
    exact absurd hq (by decide)
  data_table q hd ht := by
    rw [dataPage_onePage_old hd] at ht
    rcases tablePage_onePage_old ht with h | h | h <;> exact absurd h (by decide)
  data_inj va va' e e' hva hva' he he' _ := by
    rw [leaf_onePage_old hva] at he
    rw [leaf_onePage_old hva'] at he'
    split_ifs at he he' with h h'
    omega

theorem good_onePage_new : Good onePage 0x5000 where
  tree :=
    { root_aligned := by decide
      ne_zero := fun n q hn hq => by
        rw [tablePage_onePage_new ⟨n, hn, hq⟩]
        decide
      inj := fun n n' q hn hn' hq hq' => by
        rw [nodeAt_onePage_new hn] at hq
        rw [nodeAt_onePage_new hn'] at hq'
        split_ifs at hq hq' with h h'
        rw [h, h'] }
  free := freeOk_onePage
  free_table q hq ht := by
    rw [tablePage_onePage_new ht] at hq
    exact absurd hq (by decide)
  free_data q _ hd := by
    obtain ⟨va, -, e, he, -⟩ := hd
    rw [leaf_onePage_new] at he
    cases he
  data_table q hd _ := by
    obtain ⟨va, -, e, he, -⟩ := hd
    rw [leaf_onePage_new] at he
    cases he
  data_inj va va' e e' _ _ he _ _ := by
    rw [leaf_onePage_new] at he
    cases he

theorem apart_onePage : Apart onePage 0x1000 0x5000 where
  table q hq hq' := by
    rw [tablePage_onePage_new hq] at hq'
    rcases tablePage_onePage_old hq' with h | h | h <;> exact absurd h (by decide)
  data q hq hd := by
    rw [tablePage_onePage_new hq] at hd
    exact absurd (dataPage_onePage_old hd) (by decide)

/-- The parent's page `0` is one `uvmunmap` may free. -/
theorem freeable_onePage : ∀ va < MAXVA, va.toNat < (PGROUNDUP 4096).toNat → Freeable onePage 0x1000 va := by
  intro va hva h
  have hlow : va.toNat < 4096 := by
    have : (PGROUNDUP 4096).toNat = 4096 := by decide
    omega
  refine ⟨onePagePte, by rw [leaf_onePage_old hva, if_pos hlow], by decide, by decide, by decide⟩

end OnePage

/-! ### `uvmcopy` -/

section Uvmcopy

variable {s : Phys} {old new sz : UInt64}

/-- The loop run from page `0`. -/
theorem uvmcopy_cases (hgo : Good s old) (hgn : Good s new) (hap : Apart s old new) (hsz : sz ≤ MAXVA)
    (hold : ∀ va < MAXVA, va.toNat < (PGROUNDUP sz).toNat → Freeable s old va)
    (hnew : ∀ va < MAXVA, va.toNat < (PGROUNDUP sz).toNat → leaf s.mem new va = none) :
    ∃ r s', uvmcopy s old new sz = some (r, s') ∧
      (r = 0 ∧ Mapped new (copyFlags s.mem old) (copyContent s.mem old) 0 (PGROUNDUP sz).toNat s s' ∨
        r = -1 ∧ Restored new s s') := by
  have hN := toNat_PGROUNDUP hsz
  exact uvmcopyLoop_spec hgo hgn hap hsz hold hnew ((PGROUNDUP sz).toNat / 4096) 0 s
    (by rw [UInt64.toNat_zero]; omega) rfl (Mapped.refl hgn _ _ 0)

/-- Whichever way `uvmcopy` ends, it stored only to the child's region and left free only pages that
were free, so the parent keeps its tree, its pages and its invariant. -/
theorem Apart.kept_of_copy {s' : Phys} {r : Int} {hi : Nat} (hap : Apart s old new) (hgo : Good s old)
    (hgn : Good s new)
    (hres : r = 0 ∧ Mapped new (copyFlags s.mem old) (copyContent s.mem old) 0 hi s s' ∨ r = -1 ∧ Restored new s s') :
    Good s' old ∧ SameTree s.mem s'.mem old ∧ ∀ q b, DataPage s.mem old q → PageBytes q b → s'.mem b = s.mem b := by
  rcases hres with ⟨-, hm⟩ | ⟨-, hr⟩
  · exact hap.kept hgo hgn hm.frame hm.good.free fun q hq => hm.suffix.subset hq
  · exact hap.kept hgo hgn hr.frame hr.good.free hr.freelist

/-- `uvmcopy(old, new, sz)`, for a parent whose pages below `sz` are mapped by leaves it may free and
a child whose tables lie apart from the parent's and which maps none of those pages, never panics.
It returns `0` with each page of `[0, PGROUNDUP(sz))` mapped in the child, with the parent's flags,
to a page that was free and now holds the parent's bytes, and every other leaf of the child as it
was; or `-1`, having given back every page it took but the tables `walk` added, with every leaf of
the child as it was.  Either way the parent keeps its invariant, its tree and the bytes of its
pages. -/
theorem uvmcopy_spec (hgo : Good s old) (hgn : Good s new) (hap : Apart s old new) (hsz : sz ≤ MAXVA)
    (hold : ∀ va < MAXVA, va.toNat < (PGROUNDUP sz).toNat → Freeable s old va)
    (hnew : ∀ va < MAXVA, va.toNat < (PGROUNDUP sz).toNat → leaf s.mem new va = none) :
    ∃ r s', uvmcopy s old new sz = some (r, s') ∧
      Good s' old ∧ SameTree s.mem s'.mem old ∧ (∀ q b, DataPage s.mem old q → PageBytes q b → s'.mem b = s.mem b) ∧
      (r = 0 ∧ Mapped new (copyFlags s.mem old) (copyContent s.mem old) 0 (PGROUNDUP sz).toNat s s' ∨
        r = -1 ∧ Restored new s s') := by
  obtain ⟨r, s', hrun, hres⟩ := uvmcopy_cases hgo hgn hap hsz hold hnew
  obtain ⟨hgood, hsame, hpages⟩ := hap.kept_of_copy hgo hgn hres
  exact ⟨r, s', hrun, hgood, hsame, hpages, hres⟩

theorem uvmcopy_spec_onePage :
    Good onePage 0x1000 ∧ Good onePage 0x5000 ∧ Apart onePage 0x1000 0x5000 ∧
      ∃ r s', uvmcopy onePage 0x1000 0x5000 4096 = some (r, s') ∧
        Good s' 0x1000 ∧ SameTree onePage.mem s'.mem 0x1000 ∧
        (∀ q b, DataPage onePage.mem 0x1000 q → PageBytes q b → s'.mem b = onePage.mem b) ∧
        (r = 0 ∧ Mapped 0x5000 (copyFlags onePage.mem 0x1000) (copyContent onePage.mem 0x1000) 0
            (PGROUNDUP 4096).toNat onePage s' ∨
          r = -1 ∧ Restored 0x5000 onePage s') :=
  ⟨good_onePage_old, good_onePage_new, apart_onePage,
    uvmcopy_spec good_onePage_old good_onePage_new apart_onePage (by decide) freeable_onePage
      fun va _ _ => leaf_onePage_new va⟩

end Uvmcopy

/-! ### What a process sees: `copyin` -/

/-- `s'` through `pagetable'` shows the addresses `va .. va + len` as `s` through `pagetable` does:
each page is mapped in both or in neither, and a mapped address holds the same byte in both. -/
def SameView (s : Phys) (pagetable : UInt64) (s' : Phys) (pagetable' : UInt64) (va len : Nat) : Prop :=
  ∀ k < len, (walkaddr s' pagetable' (pageOf (va + k)) = 0 ↔ walkaddr s pagetable (pageOf (va + k)) = 0) ∧
    (walkaddr s pagetable (pageOf (va + k)) ≠ 0 →
      s'.mem (paOf s' pagetable' (va + k)) = s.mem (paOf s pagetable (va + k)))

theorem toNat_pageOf {a : Nat} (h : a < 2 ^ 64) : (pageOf a).toNat = a / 4096 * 4096 := by
  rw [pageOf, UInt64.toNat_ofNat']
  omega

/-- The rest of the page of `a` lies on that page. -/
theorem pageOf_add_of_lt {a : UInt64} {k : Nat} (hk : k < 4096 - a.toNat % 4096) :
    pageOf (a.toNat + k) = PGROUNDDOWN a := by
  rw [pageOf, show (a.toNat + k) / 4096 * 4096 = a.toNat / 4096 * 4096 by omega, ← pageOf, pageOf_toNat]

/-- `copyin` reads only the translation of each page of the range and the bytes it translates to:
two views that agree on the range give the same result, the buffer a failure leaves included. -/
theorem copyinLoop_congr {s s' : Phys} {pagetable pagetable' : UInt64} (dst : Nat → UInt8) (d : Nat)
    (srcva len : UInt64) (h : SameView s pagetable s' pagetable' srcva.toNat len.toNat) :
    copyinLoop s' pagetable' dst d srcva len = copyinLoop s pagetable dst d srcva len := by
  induction dst, d, srcva, len using copyinLoop.induct s pagetable with
  | case1 dst d srcva len hlen va0 pa0 h0 =>
    simp only [pa0, va0] at h0
    -- the first page is mapped in neither
    have h00 := (h 0 (toNat_pos hlen)).1
    rw [Nat.add_zero, pageOf_toNat] at h00
    rw [copyinLoop, copyinLoop, if_pos hlen, if_pos hlen]
    simp only [if_pos h0, if_pos (h00.mpr h0)]
  | case2 dst d srcva len hlen va0 pa0 h0 n n' ih =>
    simp only [pa0, va0] at h0
    simp only [n', n, pa0, va0, dite_eq_ite] at ih
    simp only [toNat_chunk, toNat_sub_chunk, toNat_next_page h0] at ih
    have hl := toNat_pos hlen
    have h00 := (h 0 hl).1
    rw [Nat.add_zero, pageOf_toNat] at h00
    rw [copyinLoop, copyinLoop, if_pos hlen, if_pos hlen]
    simp only [if_neg h0, if_neg (mt h00.mp h0), toNat_chunk]
    refine Eq.trans ?_ (ih fun k hk => ?_)
    · -- the bytes of the first page are the same
      congr 1
      apply Mem.copy_congr
      intro k hk
      have hk' : k < 4096 - srcva.toNat % 4096 := by omega
      rw [toNat_pa_off, toNat_pa_off, ← paOf_of_lt hk', ← paOf_of_lt hk']
      exact (h k (by omega)).2 (by rw [pageOf_add_of_lt hk']; exact h0)
    · -- and the rest of the range from the next page on
      have := h (4096 - srcva.toNat % 4096 + k) (by omega)
      rwa [show srcva.toNat + (4096 - srcva.toNat % 4096 + k) = srcva.toNat / 4096 * 4096 + 4096 + k by omega]
        at this
  | case3 dst d srcva len hlen =>
    rw [copyinLoop, copyinLoop, if_neg hlen, if_neg hlen]

/-- A memory that keeps a tree and the bytes of its pages shows every range through it as before. -/
theorem SameTree.sameView {s s' : Phys} {pagetable : UInt64} (h : SameTree s.mem s'.mem pagetable)
    (hok : TreeOk s.mem pagetable)
    (hpages : ∀ q b, DataPage s.mem pagetable q → PageBytes q b → s'.mem b = s.mem b) (va len : Nat) :
    SameView s pagetable s' pagetable va len := by
  intro k _
  have hw := h.same_walkaddr hok (pageOf (va + k))
  refine ⟨by rw [hw], fun h0 => ?_⟩
  -- a mapped address lies on the page of a leaf
  obtain ⟨e, he, hpa⟩ := leaf_of_walkaddr hok h0
  rw [paOf, paOf, hw, hpa]
  exact hpages _ _ ⟨_, walkaddr_lt_MAXVA h0, e, he, rfl⟩ ⟨by omega, by omega⟩

/-- The child that a run of the loop mapped over `[0, hi)` shows every range below `hi` as the parent
did before. -/
theorem Mapped.sameView {s0 s : Phys} {old new : UInt64} {hi : Nat}
    (hm : Mapped new (copyFlags s0.mem old) (copyContent s0.mem old) 0 hi s0 s) (hgo : Good s0 old)
    (hhi : hi ≤ MAXVA.toNat) (hold : ∀ va < MAXVA, va.toNat < hi → Freeable s0 old va) {va len : Nat}
    (hlen : va + len ≤ hi) : SameView s0 old s new va len := by
  intro k hk
  have hmax := toNat_MAXVA
  have hp := toNat_pageOf (a := va + k) (by omega)
  have hpm : pageOf (va + k) < MAXVA := UInt64.lt_iff_toNat_lt.mpr (by omega)
  -- the page is mapped in the parent to a page above `end`, and in the child to a fresh copy of it
  obtain ⟨e, he, -, hkend, -⟩ := hold _ hpm (by omega)
  obtain ⟨e', he', hfl, hfree, hbytes⟩ := hm.fresh _ hpm (Nat.zero_le _) (by omega)
  rw [copyFlags_of_leaf he, PTE_FLAGS_or_V (leaf_valid he)] at hfl
  have hpa : PTE2PA e ≠ 0 := fun h0 => by
    have := UInt64.lt_of_lt_of_le hgo.free.kend_pos hkend
    rw [h0] at this
    exact absurd this (by decide)
  have hpa' : PTE2PA e' ≠ 0 := hgo.free.ne_zero hfree
  have hU : e' &&& PTE_U = 0 ↔ e &&& PTE_U = 0 := by rw [← PTE_FLAGS_and_U e', hfl, PTE_FLAGS_and_U]
  rw [paOf, paOf, walkaddr_of_leaf hm.good.tree hpm he', walkaddr_of_leaf hgo.tree hpm he]
  by_cases hu : e &&& PTE_U = 0
  · simp [hu, hU.mpr hu]
  · rw [if_neg hu, if_neg (mt hU.mp hu), hbytes _ (Nat.mod_lt _ (by norm_num)), copyContent_of_leaf he]
    exact ⟨⟨fun h0 => absurd h0 hpa', fun h0 => absurd h0 hpa⟩, fun _ => rfl⟩

/-- `uvmcopy` as the processes see it: whichever way it ends, the parent reads every range of its
memory through `copyin` as before the call; and when it returns `0`, the child reads every range
below `sz` as the parent did. -/
theorem uvmcopy_copyin {s : Phys} {old new sz : UInt64} (hgo : Good s old) (hgn : Good s new)
    (hap : Apart s old new) (hsz : sz ≤ MAXVA)
    (hold : ∀ va < MAXVA, va.toNat < (PGROUNDUP sz).toNat → Freeable s old va)
    (hnew : ∀ va < MAXVA, va.toNat < (PGROUNDUP sz).toNat → leaf s.mem new va = none) :
    ∃ r s', uvmcopy s old new sz = some (r, s') ∧ ∀ (dst : Nat → UInt8) (va len : UInt64),
      copyin s' old dst va len = copyin s old dst va len ∧
        (r = 0 → va.toNat + len.toNat ≤ (PGROUNDUP sz).toNat → copyin s' new dst va len = copyin s old dst va len) := by
  obtain ⟨r, s', hrun, hres⟩ := uvmcopy_cases hgo hgn hap hsz hold hnew
  obtain ⟨-, hsame, hpages⟩ := hap.kept_of_copy hgo hgn hres
  have hhi : (PGROUNDUP sz).toNat ≤ MAXVA.toNat := by
    have := UInt64.le_iff_toNat_le.mp hsz
    rw [toNat_PGROUNDUP hsz, toNat_MAXVA] at *
    omega
  refine ⟨r, s', hrun, fun dst va len => ⟨copyinLoop_congr dst 0 va len (hsame.sameView hgo.tree hpages _ _), ?_⟩⟩
  rintro rfl hlen
  rcases hres with ⟨-, hm⟩ | ⟨h, -⟩
  · exact copyinLoop_congr dst 0 va len (hm.sameView hgo hhi hold hlen)
  · omega


theorem uvmcopy_copyin_onePage :
    Good onePage 0x1000 ∧ Good onePage 0x5000 ∧ Apart onePage 0x1000 0x5000 ∧
      ∃ r s', uvmcopy onePage 0x1000 0x5000 4096 = some (r, s') ∧ ∀ (dst : Nat → UInt8) (va len : UInt64),
        copyin s' 0x1000 dst va len = copyin onePage 0x1000 dst va len ∧
          (r = 0 → va.toNat + len.toNat ≤ (PGROUNDUP 4096).toNat →
            copyin s' 0x5000 dst va len = copyin onePage 0x1000 dst va len) :=
  ⟨good_onePage_old, good_onePage_new, apart_onePage,
    uvmcopy_copyin good_onePage_old good_onePage_new apart_onePage (by decide) freeable_onePage
      fun va _ _ => leaf_onePage_new va⟩

end Xv6Sched.Vm
