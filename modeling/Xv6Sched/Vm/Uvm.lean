import Xv6Sched.Vm.Tree

/-!
# Xv6Sched.Vm.Uvm — `mappages`, `uvmunmap`, `uvmalloc`, `uvmdealloc`, `uvmcopy`

The user-memory functions of `vm.c` over the page-table tree of `Xv6Sched.Vm.Tree`.  A panic is
`none`.  Each function has one spec lemma, under the invariant `Good` and the conditions under
which the kernel calls it (the pages it maps unmapped, those it unmaps mapped by leaves it may
free, sizes up to `MAXVA`); callers cite the spec, never the body.
-/

namespace Xv6Sched.Vm

/-! ### The code -/

theorem walk_lt_MAXVA {s : Phys} {pagetable va : UInt64} {alloc : Bool} {r : UInt64 × Phys}
    (h : walk s pagetable va alloc = some r) : va < MAXVA := by
  unfold walk at h
  split_ifs at h with hva
  exact UInt64.not_le.mp hva

/-- The loop of `mappages` over `n` more pages from `a`, mapped to `pa` on. -/
def mappagesLoop (pagetable perm : UInt64) : Nat → UInt64 → UInt64 → Phys → Option (Int × Phys)
  | 0, _, _, s => some (0, s)
  | n + 1, a, pa, s =>
    match walk s pagetable a true with
    | none => none
    | some (pte, s) =>
      if pte = 0 then some (-1, s)
      else if ldPte s.mem pte &&& PTE_V ≠ 0 then none
      else mappagesLoop pagetable perm n (a + PGSIZE) (pa + PGSIZE)
        { s with mem := stPte s.mem pte (PA2PTE pa ||| perm ||| PTE_V) }

/-- `mappages(pagetable, va, size, pa, perm)`: `0`, or `-1` when `walk` could not allocate a table.
`perm` is the `int` argument as the `uint64` it becomes in the PTE. -/
def mappages (s : Phys) (pagetable va size pa perm : UInt64) : Option (Int × Phys) :=
  if size = 0 then none
  else
    let a := PGROUNDDOWN va
    let last := PGROUNDDOWN (va + size - 1)
    -- `a` and `last` are multiples of `PGSIZE`, so `a == last` after `(last - a) / PGSIZE` steps
    mappagesLoop pagetable perm (((last - a) / PGSIZE).toNat + 1) a pa s

/-- The loop of `uvmunmap` from `a` while `a < last`, `last` being `va + npages*PGSIZE`. -/
def uvmunmapLoop (pagetable last : UInt64) (do_free : Bool) (a : UInt64) (s : Phys) : Option Phys :=
  if a < last then
    match _hw : walk s pagetable a false with
    | none => none
    | some (pte, _) =>
      if pte = 0 then none
      else if ldPte s.mem pte &&& PTE_V = 0 then none
      else if PTE_FLAGS (ldPte s.mem pte) = PTE_V then none
      else
        match (if do_free then kfree s (PTE2PA (ldPte s.mem pte)) else some s) with
        | none => none
        | some s => uvmunmapLoop pagetable last do_free (a + PGSIZE) { s with mem := stPte s.mem pte 0 }
  else some s
termination_by last.toNat - a.toNat
decreasing_by
  have ha := UInt64.lt_iff_toNat_lt.mp (walk_lt_MAXVA _hw)
  have hl := UInt64.lt_iff_toNat_lt.mp ‹a < last›
  rw [toNat_MAXVA] at ha
  rw [UInt64.toNat_add, toNat_PGSIZE, Nat.mod_eq_of_lt (by omega)]
  omega

/-- `uvmunmap(pagetable, va, npages, do_free)`. -/
def uvmunmap (s : Phys) (pagetable va npages : UInt64) (do_free : Bool) : Option Phys :=
  if va % PGSIZE ≠ 0 then none
  else uvmunmapLoop pagetable (va + npages * PGSIZE) do_free va s

/-- `uvmdealloc(pagetable, oldsz, newsz)`: the new size. -/
def uvmdealloc (s : Phys) (pagetable oldsz newsz : UInt64) : Option (UInt64 × Phys) :=
  if newsz ≥ oldsz then some (oldsz, s)
  else if PGROUNDUP newsz < PGROUNDUP oldsz then
    -- `int npages`: the quotient cut to 32 bits, sign-extended back for `uvmunmap`
    let npages : Int32 := ((PGROUNDUP oldsz - PGROUNDUP newsz) / PGSIZE).toUInt32.toInt32
    (uvmunmap s pagetable (PGROUNDUP newsz) npages.toInt64.toUInt64 true).map fun s => (newsz, s)
  else some (newsz, s)

theorem mappages_lt_MAXVA {s : Phys} {pagetable va size pa perm : UInt64} {r : Int × Phys}
    (h : mappages s pagetable va size pa perm = some r) : va < MAXVA := by
  unfold mappages at h
  split_ifs at h
  simp only [mappagesLoop] at h
  split at h
  · cases h
  · have hd := UInt64.lt_iff_toNat_lt.mp (walk_lt_MAXVA ‹_›)
    rw [toNat_PGROUNDDOWN, toNat_MAXVA] at hd
    exact UInt64.lt_iff_toNat_lt.mpr (by rw [toNat_MAXVA]; omega)

/-- The loop of `uvmalloc` from `a`, `oldsz` already rounded up. -/
def uvmallocLoop (pagetable oldsz newsz a : UInt64) (s : Phys) : Option (UInt64 × Phys) :=
  if a < newsz then
    let (mem, s) := kalloc s
    if mem = 0 then (uvmdealloc s pagetable a oldsz).map fun r => (0, r.2)
    else
      let s := { s with mem := Mem.fill s.mem mem.toNat PGSIZE.toNat 0 }
      match _hm : mappages s pagetable a PGSIZE mem (PTE_W ||| PTE_X ||| PTE_R ||| PTE_U) with
      | none => none
      | some (r, s) =>
        if r ≠ 0 then (kfree s mem).bind fun s => (uvmdealloc s pagetable a oldsz).map fun r => (0, r.2)
        else uvmallocLoop pagetable oldsz newsz (a + PGSIZE) s
  else some (newsz, s)
termination_by newsz.toNat - a.toNat
decreasing_by
  have ha := UInt64.lt_iff_toNat_lt.mp (mappages_lt_MAXVA _hm)
  have hl := UInt64.lt_iff_toNat_lt.mp ‹a < newsz›
  rw [toNat_MAXVA] at ha
  rw [UInt64.toNat_add, toNat_PGSIZE, Nat.mod_eq_of_lt (by omega)]
  omega

/-- `uvmalloc(pagetable, oldsz, newsz)`: the new size, or `0`. -/
def uvmalloc (s : Phys) (pagetable oldsz newsz : UInt64) : Option (UInt64 × Phys) :=
  if newsz < oldsz then some (oldsz, s)
  else uvmallocLoop pagetable (PGROUNDUP oldsz) newsz (PGROUNDUP oldsz) s

/-- `err:` in `uvmcopy`: unmap and free the pages below `i` copied so far. -/
def uvmcopyErr (new i : UInt64) (s : Phys) : Option (Int × Phys) :=
  (uvmunmap s new 0 (i / PGSIZE) true).map fun s => (-1, s)

/-- The loop of `uvmcopy` from `i`.  `flags` is the `uint` of the PTE's low ten bits, passed on
to `mappages` unchanged. -/
def uvmcopyLoop (old new sz i : UInt64) (s : Phys) : Option (Int × Phys) :=
  if i < sz then
    match _hw : walk s old i false with
    | none => none
    | some (pte, _) =>
      if pte = 0 then none
      else if ldPte s.mem pte &&& PTE_V = 0 then none
      else
        let pa := PTE2PA (ldPte s.mem pte)
        let flags := PTE_FLAGS (ldPte s.mem pte)
        let (mem, s) := kalloc s
        if mem = 0 then uvmcopyErr new i s
        else
          let s := { s with mem := Mem.copy s.mem mem.toNat PGSIZE.toNat fun k => s.mem (pa.toNat + k) }
          match mappages s new i PGSIZE mem flags with
          | none => none
          | some (r, s) =>
            if r ≠ 0 then (kfree s mem).bind (uvmcopyErr new i)
            else uvmcopyLoop old new sz (i + PGSIZE) s
  else some (0, s)
termination_by sz.toNat - i.toNat
decreasing_by
  have ha := UInt64.lt_iff_toNat_lt.mp (walk_lt_MAXVA _hw)
  have hl := UInt64.lt_iff_toNat_lt.mp ‹i < sz›
  rw [toNat_MAXVA] at ha
  rw [UInt64.toNat_add, toNat_PGSIZE, Nat.mod_eq_of_lt (by omega)]
  omega

/-- `uvmcopy(old, new, sz)`: `0`, or `-1` with what was copied freed. -/
def uvmcopy (s : Phys) (old new sz : UInt64) : Option (Int × Phys) := uvmcopyLoop old new sz 0 s

/-! ### The allocator and the invariant -/

section Alloc

variable {s s' : Phys} {pagetable pa : UInt64}

theorem toNat_mod_PGSIZE (a : UInt64) : (a % PGSIZE).toNat = a.toNat % 4096 := by
  rw [UInt64.toNat_mod, toNat_PGSIZE]

/-- What `kfree` does when it does not panic: the page checked and pushed, only it stored to. -/
theorem kfree_eq_some (h : kfree s pa = some s') :
    pa.toNat % 4096 = 0 ∧ s.kend ≤ pa ∧ pa < PHYSTOP ∧ s'.freelist = pa :: s.freelist ∧
      s'.kend = s.kend ∧ Mem.Frame s.mem s'.mem (PageBytes pa) := by
  unfold kfree at h
  split_ifs at h with hc
  cases h
  simp only [not_or, ne_eq, Decidable.not_not, UInt64.not_lt, UInt64.not_le] at hc
  obtain ⟨h0, hk, hP⟩ := hc
  refine ⟨by rw [← toNat_mod_PGSIZE, h0]; rfl, hk, hP, rfl, rfl, ?_⟩
  have hs : Mem.Frame (Mem.fill s.mem pa.toNat PGSIZE.toNat 1)
      (Mem.store (Mem.fill s.mem pa.toNat PGSIZE.toNat 1) pa.toNat 8 (s.freelist.headD 0).toNat)
      fun b => pa.toNat ≤ b ∧ b < pa.toNat + 8 := by
    unfold Mem.store
    exact Mem.frame_copy _ _ _ _
  refine ((frame_fill s.mem pa 1).trans hs).mono fun b hb => ?_
  rcases hb with hb | hb
  · exact hb
  · exact ⟨hb.1, by omega⟩

theorem kfree_isSome (h0 : pa.toNat % 4096 = 0) (hk : s.kend ≤ pa) (hP : pa < PHYSTOP) :
    ∃ s', kfree s pa = some s' := by
  have hm : pa % PGSIZE = 0 := UInt64.toNat_inj.mp (by rw [toNat_mod_PGSIZE, h0]; rfl)
  unfold kfree
  rw [if_neg (by simp [hm, UInt64.not_lt.mpr hk, UInt64.not_le.mpr hP])]
  exact ⟨_, rfl⟩

theorem kalloc_nil (h : s.freelist = []) : kalloc s = (0, s) := by
  simp [kalloc, h]

theorem kalloc_cons {p : UInt64} {rest : List UInt64} (h : s.freelist = p :: rest) :
    kalloc s = (p, { s with mem := Mem.fill s.mem p.toNat PGSIZE.toNat 5, freelist := rest }) := by
  simp [kalloc, h]

/-- A store that leaves the tables alone keeps the invariant. -/
theorem Good.of_frame {m' : Nat → UInt8} {W : Nat → Prop} (hg : Good s pagetable) (h : Mem.Frame s.mem m' W)
    (hW : ∀ q b, TablePage s.mem pagetable q → PageBytes q b → ¬ W b) :
    Good { s with mem := m' } pagetable ∧ SameTree s.mem m' pagetable := by
  have hs := sameTree_of_frame hg.tree h hW
  refine ⟨⟨hs.treeOk hg.tree, ⟨hg.free.nodup, hg.free.page, hg.free.kend_pos⟩, fun q hq ht => hg.free_table q hq (hs.tablePage_iff.mp ht),
    fun q hq hd => hg.free_data q hq (hs.dataPage_iff.mp hd),
    fun q hd ht => hg.data_table q (hs.dataPage_iff.mp hd) (hs.tablePage_iff.mp ht), ?_⟩, hs⟩
  intro va va' e e' hva hva' he he'
  exact hg.data_inj va va' e e' hva hva' ((hs.2 va).symm.trans he) ((hs.2 va').symm.trans he')

/-- A free page is outside every table. -/
theorem Good.not_table_of_free (hg : Good s pagetable) {p : UInt64} (hp : p ∈ s.freelist) :
    ∀ q b, TablePage s.mem pagetable q → PageBytes q b → ¬ PageBytes p b := by
  intro q b hq hb hb'
  exact hg.free_table p hp (eq_of_pageBytes (hg.tree.tablePage_aligned hq) (hg.free.page p hp).1 hb hb' ▸ hq)

/-- Taking the head off the free list keeps the invariant. -/
theorem Good.pop {p : UInt64} {rest : List UInt64} (hg : Good s pagetable) (h : s.freelist = p :: rest) :
    Good { s with freelist := rest } pagetable where
  tree := hg.tree
  free :=
    { nodup := (List.nodup_cons.mp (h ▸ hg.free.nodup)).2
      page := fun q hq => hg.free.page q (h ▸ List.mem_cons_of_mem p hq)
      kend_pos := hg.free.kend_pos }
  free_table q hq := hg.free_table q (h ▸ List.mem_cons_of_mem p hq)
  free_data q hq := hg.free_data q (h ▸ List.mem_cons_of_mem p hq)
  data_table := hg.data_table
  data_inj := hg.data_inj

/-- `kalloc` and the `memset` after it: the page taken off the free list, now nobody's. -/
theorem kalloc_fill_spec {p : UInt64} {rest : List UInt64} (hg : Good s pagetable) (h : s.freelist = p :: rest)
    (c : UInt8) :
    Good { s with mem := Mem.fill (Mem.fill s.mem p.toNat PGSIZE.toNat 5) p.toNat PGSIZE.toNat c, freelist := rest } pagetable ∧
      SameTree s.mem (Mem.fill (Mem.fill s.mem p.toNat PGSIZE.toNat 5) p.toNat PGSIZE.toNat c) pagetable := by
  have hp : p ∈ s.freelist := h ▸ List.mem_cons_self
  rw [Mem.fill_fill]
  exact (hg.pop h).of_frame (frame_fill s.mem p c) (hg.not_table_of_free hp)

end Alloc

/-! ### Unmapping -/

/-- `q` is the page of a valid leaf of a page in `[lo, hi)`. -/
def MapsIn (s : Phys) (pagetable : UInt64) (lo hi : Nat) (q : UInt64) : Prop :=
  ∃ va < MAXVA, lo ≤ va.toNat ∧ va.toNat < hi ∧ ∃ e, leaf s.mem pagetable va = some e ∧ PTE2PA e = q

/-- The page at `va` is mapped by a leaf that `uvmunmap` unmaps without a panic and whose page
`kfree` takes. -/
def Freeable (s : Phys) (pagetable va : UInt64) : Prop :=
  ∃ e, leaf s.mem pagetable va = some e ∧ PTE_FLAGS e ≠ PTE_V ∧ s.kend ≤ PTE2PA e ∧ PTE2PA e < PHYSTOP

/-- `s'` is `s` with the leaves of the pages in `[lo, hi)` removed and their pages freed, as
`uvmunmap(pagetable, lo, (hi - lo) / PGSIZE, 1)` leaves it. -/
structure Unmapped (pagetable : UInt64) (lo hi : Nat) (s s' : Phys) : Prop where
  good : Good s' pagetable
  kend : s'.kend = s.kend
  tables : ∀ q, TablePage s'.mem pagetable q ↔ TablePage s.mem pagetable q
  leaves : ∀ va < MAXVA, leaf s'.mem pagetable va =
    if lo ≤ va.toNat ∧ va.toNat < hi then none else leaf s.mem pagetable va
  freed : ∀ q, q ∈ s'.freelist ↔ q ∈ s.freelist ∨ MapsIn s pagetable lo hi q
  frame : Mem.Frame s.mem s'.mem fun b => Region s pagetable b ∨ ∃ q, MapsIn s pagetable lo hi q ∧ PageBytes q b

section Unmap

variable {s s' s'' : Phys} {pagetable : UInt64}

/-- Leaves that agree on `[lo, hi)` map the same pages there. -/
theorem mapsIn_congr {lo hi : Nat} {q : UInt64}
    (h : ∀ va < MAXVA, lo ≤ va.toNat → va.toNat < hi → leaf s'.mem pagetable va = leaf s.mem pagetable va) :
    MapsIn s' pagetable lo hi q ↔ MapsIn s pagetable lo hi q := by
  constructor
  · rintro ⟨va, hva, h1, h2, e, he, rfl⟩
    exact ⟨va, hva, h1, h2, e, (h va hva h1 h2) ▸ he, rfl⟩
  · rintro ⟨va, hva, h1, h2, e, he, rfl⟩
    exact ⟨va, hva, h1, h2, e, (h va hva h1 h2).symm ▸ he, rfl⟩

theorem mapsIn_split {lo mid hi : Nat} {q : UInt64} (h1 : lo ≤ mid) (h2 : mid ≤ hi) :
    MapsIn s pagetable lo hi q ↔ MapsIn s pagetable lo mid q ∨ MapsIn s pagetable mid hi q := by
  constructor
  · rintro ⟨va, hva, hl, hh, e, he, rfl⟩
    by_cases hm : va.toNat < mid
    · exact .inl ⟨va, hva, hl, hm, e, he, rfl⟩
    · exact .inr ⟨va, hva, by omega, hh, e, he, rfl⟩
  · rintro (⟨va, hva, hl, hh, e, he, rfl⟩ | ⟨va, hva, hl, hh, e, he, rfl⟩)
    · exact ⟨va, hva, hl, by omega, e, he, rfl⟩
    · exact ⟨va, hva, by omega, hh, e, he, rfl⟩

theorem Unmapped.empty {lo hi : Nat} (hg : Good s pagetable) (h : hi ≤ lo) : Unmapped pagetable lo hi s s where
  good := hg
  kend := rfl
  tables _ := Iff.rfl
  leaves va _ := by rw [if_neg (by omega)]
  freed q := by
    constructor
    · exact .inl
    · rintro (hq | ⟨va, -, h1, h2, -⟩)
      · exact hq
      · omega
  frame := Mem.Frame.refl _ _

/-- Unmapping `[lo, mid)` and then `[mid, hi)` unmaps `[lo, hi)`. -/
theorem Unmapped.trans {lo mid hi : Nat} (h : Unmapped pagetable lo mid s s') (h' : Unmapped pagetable mid hi s' s'')
    (h1 : lo ≤ mid) (h2 : mid ≤ hi) : Unmapped pagetable lo hi s s'' := by
  -- above `mid` the first part kept the leaves
  have hkeep : ∀ va < MAXVA, mid ≤ va.toNat → va.toNat < hi → leaf s'.mem pagetable va = leaf s.mem pagetable va :=
    fun va hva hm _ => by rw [h.leaves va hva, if_neg (by omega)]
  refine ⟨h'.good, h'.kend.trans h.kend, fun q => (h'.tables q).trans (h.tables q), fun va hva => ?_,
    fun q => ?_, ?_⟩
  · rw [h'.leaves va hva, h.leaves va hva]
    split_ifs <;> first | rfl | omega
  · rw [h'.freed, h.freed, mapsIn_congr hkeep, mapsIn_split h1 h2]
    tauto
  · refine (h.frame.trans h'.frame).mono fun b hb => ?_
    rcases hb with (hb | ⟨q, hq, hb⟩) | (⟨q, hq | hq, hb⟩ | ⟨q, hq, hb⟩)
    · exact .inl hb
    · exact .inr ⟨q, (mapsIn_split h1 h2).mpr (.inl hq), hb⟩
    · exact .inl ⟨q, .inl ((h.tables q).mp hq), hb⟩
    · rcases (h.freed q).mp hq with hq | hq
      · exact .inl ⟨q, .inr hq, hb⟩
      · exact .inr ⟨q, (mapsIn_split h1 h2).mpr (.inl hq), hb⟩
    · exact .inr ⟨q, (mapsIn_split h1 h2).mpr (.inr ((mapsIn_congr hkeep).mp hq)), hb⟩

/-- One page of `uvmunmap(pagetable, …, 1)`: its page freed, then its PTE zeroed. -/
theorem unmapped_page {a e slot : UInt64} {s1 : Phys} (hg : Good s pagetable) (ha : a.toNat % 4096 = 0)
    (hva : a < MAXVA) (hleaf : leaf s.mem pagetable a = some e) (hs : slotOf s.mem pagetable a = some slot)
    (hk : kfree s (PTE2PA e) = some s1) :
    Unmapped pagetable a.toNat (a.toNat + 4096) s { s1 with mem := stPte s1.mem slot 0 } := by
  obtain ⟨hd0, hdk, hdP, hfl1, hkend1, hframe1⟩ := kfree_eq_some hk
  have hdata : DataPage s.mem pagetable (PTE2PA e) := ⟨a, hva, e, hleaf, rfl⟩
  have hnt := hg.data_table _ hdata
  have hnf : PTE2PA e ∉ s.freelist := fun h => hg.free_data _ h hdata
  -- `kfree` stores only to the freed page, which is no table
  have hsame : SameTree s.mem s1.mem pagetable := sameTree_of_frame hg.tree hframe1
    fun q b hq hb hb' => hnt (eq_of_pageBytes (hg.tree.tablePage_aligned hq) hd0 hb hb' ▸ hq)
  have hok1 := hsame.treeOk hg.tree
  have hs1 : slotOf s1.mem pagetable a = some slot := by
    unfold slotOf
    rw [hsame.1 _ (Node.valid_l0 a)]
    exact hs
  have hnodes : ∀ n, Node.Valid n → nodeAt (stPte s1.mem slot 0) pagetable n = nodeAt s.mem pagetable n :=
    fun n hn => (nodeAt_stPte_slot hok1 hs1 0 n hn).trans (hsame.1 n hn)
  have htab : ∀ q, TablePage (stPte s1.mem slot 0) pagetable q ↔ TablePage s.mem pagetable q :=
    fun _ => tablePage_iff_of_nodeAt hnodes
  have hleaves : ∀ va < MAXVA, leaf (stPte s1.mem slot 0) pagetable va =
      if va.toNat / 4096 = a.toNat / 4096 then none else leaf s.mem pagetable va := by
    intro va hva'
    rw [leaf_stPte hok1 hva hs1 0 va hva', validPte_stPte, hsame.2 va]
    simp
  have hsub : ∀ va < MAXVA, ∀ e', leaf (stPte s1.mem slot 0) pagetable va = some e' →
      va.toNat / 4096 ≠ a.toNat / 4096 ∧ leaf s.mem pagetable va = some e' := by
    intro va hva' e' he'
    rw [hleaves va hva'] at he'
    split_ifs at he' with hp
    exact ⟨hp, he'⟩
  have hdsub : ∀ q, DataPage (stPte s1.mem slot 0) pagetable q → DataPage s.mem pagetable q := by
    rintro q ⟨va, hva', e', he', rfl⟩
    exact ⟨va, hva', e', (hsub va hva' e' he').2, rfl⟩
  -- the pages mapped in `[a, a + 4096)`: the one freed
  have hmaps : ∀ q, MapsIn s pagetable a.toNat (a.toNat + 4096) q ↔ q = PTE2PA e := by
    intro q
    constructor
    · rintro ⟨va, hva', h1, h2, e', he', rfl⟩
      rw [leaf_of_page (show va.toNat / 4096 = a.toNat / 4096 by omega), hleaf] at he'
      cases he'
      rfl
    · rintro rfl
      exact ⟨a, hva, le_rfl, by omega, e, hleaf, rfl⟩
  have hfree : FreeOk { s1 with mem := stPte s1.mem slot 0 } := by
    refine ⟨?_, fun q hq => ?_, hkend1 ▸ hg.free.kend_pos⟩
    · show s1.freelist.Nodup
      rw [hfl1]
      exact List.nodup_cons.mpr ⟨hnf, hg.free.nodup⟩
    · show q.toNat % 4096 = 0 ∧ s1.kend ≤ q ∧ q < PHYSTOP
      rw [hkend1]
      rcases List.mem_cons.mp (hfl1 ▸ hq) with rfl | hq
      · exact ⟨hd0, hdk, hdP⟩
      · exact hg.free.page q hq
  have hgood : Good { s1 with mem := stPte s1.mem slot 0 } pagetable := by
    refine ⟨hg.tree.of_nodeAt hnodes, hfree, fun q hq ht => ?_, fun q hq hd => ?_,
      fun q hd ht => hg.data_table q (hdsub q hd) ((htab q).mp ht), ?_⟩
    · rcases List.mem_cons.mp (hfl1 ▸ hq) with rfl | hq
      · exact hnt ((htab _).mp ht)
      · exact hg.free_table q hq ((htab q).mp ht)
    · obtain ⟨va, hva', e', he', rfl⟩ := hd
      obtain ⟨hp, he''⟩ := hsub va hva' e' he'
      rcases List.mem_cons.mp (hfl1 ▸ hq) with hq | hq
      · exact hp (hg.data_inj va a e' e hva' hva he'' hleaf hq)
      · exact hg.free_data _ hq ⟨va, hva', e', he'', rfl⟩
    · intro va va' e1 e2 hva1 hva2 he1 he2 heq
      exact hg.data_inj va va' e1 e2 hva1 hva2 (hsub va hva1 e1 he1).2 (hsub va' hva2 e2 he2).2 heq
  refine ⟨hgood, hkend1, htab, fun va hva' => ?_, fun q => ?_, ?_⟩
  · rw [hleaves va hva']
    by_cases hp : va.toNat / 4096 = a.toNat / 4096
    · rw [if_pos hp, if_pos (by omega)]
    · rw [if_neg hp, if_neg (by omega)]
  · show q ∈ s1.freelist ↔ _
    rw [hfl1, List.mem_cons, hmaps]
    exact or_comm
  · obtain ⟨-, t, ht, hbytes⟩ := slotOf_facts hg.tree hs
    refine (hframe1.trans (frame_stPte s1.mem slot 0)).mono fun b hb => ?_
    rcases hb with hb | hb
    · exact .inr ⟨_, (hmaps _).mpr rfl, hb⟩
    · have := hbytes (b - slot.toNat) (by omega)
      rw [show slot.toNat + (b - slot.toNat) = b by omega] at this
      exact .inl ⟨t, .inl ht, this⟩

/-- `walk` without allocation, at a page whose level-0 PTE is reached. -/
theorem walk_false_eq {va slot : UInt64} (hva : va < MAXVA) (hs : slotOf s.mem pagetable va = some slot) :
    walk s pagetable va false = some (slot, s) := by
  unfold walk
  rw [if_neg (UInt64.not_le.mpr hva)]
  congr 1
  exact Prod.ext (by rw [walkFrom_false_eq, hs]; rfl) (walkFrom_false va 2 pagetable s)

/-- One iteration of `uvmunmap`'s loop, at a page mapped by a leaf it may free. -/
theorem uvmunmapLoop_step {last a e slot : UInt64} {s1 : Phys} (hlt : a < last) (hg : Good s pagetable)
    (hva : a < MAXVA) (hleaf : leaf s.mem pagetable a = some e) (hflags : PTE_FLAGS e ≠ PTE_V)
    (hs : slotOf s.mem pagetable a = some slot) (hk : kfree s (PTE2PA e) = some s1) :
    uvmunmapLoop pagetable last true a s =
      uvmunmapLoop pagetable last true (a + PGSIZE) { s1 with mem := stPte s1.mem slot 0 } := by
  have hwalk := walk_false_eq hva hs
  have hne := (slotOf_facts hg.tree hs).1
  obtain ⟨a', hs', hv⟩ := leaf_eq_some.mp hleaf
  rw [hs] at hs'
  cases hs'
  obtain ⟨hld, hvalid⟩ := validPte_eq_some.mp hv
  rw [uvmunmapLoop, if_pos hlt]
  split
  · rename_i h
    rw [hwalk] at h
    cases h
  · rename_i h
    rw [hwalk] at h
    cases h
    rw [if_neg hne, if_neg (by rw [hld]; exact hvalid), if_neg (by rw [hld]; exact hflags)]
    simp only [if_true, hld, hk]

theorem toNat_add_PGSIZE {a : UInt64} (h : a < MAXVA) : (a + PGSIZE).toNat = a.toNat + 4096 := by
  have := UInt64.lt_iff_toNat_lt.mp h
  rw [toNat_MAXVA] at this
  rw [UInt64.toNat_add, toNat_PGSIZE, Nat.mod_eq_of_lt (by omega)]

/-- `uvmunmap`'s loop over `n` pages mapped by leaves it may free unmaps and frees them all. -/
theorem uvmunmapLoop_spec (pagetable last : UInt64) (hmax : last ≤ MAXVA) :
    ∀ (n : Nat) (a : UInt64) (s : Phys), last.toNat - a.toNat = 4096 * n → a.toNat % 4096 = 0 →
      Good s pagetable →
      (∀ va < MAXVA, a.toNat ≤ va.toNat → va.toNat < last.toNat → Freeable s pagetable va) →
      ∃ s', uvmunmapLoop pagetable last true a s = some s' ∧ Unmapped pagetable a.toNat last.toNat s s'
  | 0, a, s, hn, _, hg, _ => by
    have hge : ¬ a < last := fun h => by
      have := UInt64.lt_iff_toNat_lt.mp h
      omega
    rw [uvmunmapLoop, if_neg hge]
    exact ⟨s, rfl, Unmapped.empty hg (by omega)⟩
  | n + 1, a, s, hn, ha, hg, hfree => by
    have hlt : a < last := UInt64.lt_iff_toNat_lt.mpr (by omega)
    have hva : a < MAXVA := UInt64.lt_iff_toNat_lt.mpr (by have := UInt64.le_iff_toNat_le.mp hmax; omega)
    obtain ⟨e, hleaf, hflags, hk, hP⟩ := hfree a hva le_rfl (by omega)
    obtain ⟨slot, hs, -⟩ := leaf_eq_some.mp hleaf
    obtain ⟨s1, hs1⟩ := kfree_isSome (PTE2PA_aligned e) hk hP
    have hstep := unmapped_page hg ha hva hleaf hs hs1
    have hnext := toNat_add_PGSIZE hva
    -- the rest of the pages, from the next one
    obtain ⟨s', hrun, hu⟩ := uvmunmapLoop_spec pagetable last hmax n (a + PGSIZE) _ (by omega) (by omega)
      hstep.good fun va hva' h1 h2 => by
        obtain ⟨e', he', hf', hk', hP'⟩ := hfree va hva' (by omega) h2
        refine ⟨e', ?_, hf', hstep.kend ▸ hk', hP'⟩
        rw [hstep.leaves va hva', if_neg (by omega)]
        exact he'
    rw [uvmunmapLoop_step hlt hg hva hleaf hflags hs hs1]
    refine ⟨s', hrun, hstep.trans (hnext ▸ hu) (by omega) ?_⟩
    omega

/-- `uvmunmap(pagetable, va, npages, 1)` over pages mapped by leaves it may free. -/
theorem uvmunmap_spec {va npages : UInt64} (hg : Good s pagetable) (ha : va.toNat % 4096 = 0)
    (hmax : va.toNat + npages.toNat * 4096 ≤ MAXVA.toNat)
    (hfree : ∀ va' < MAXVA, va.toNat ≤ va'.toNat → va'.toNat < va.toNat + npages.toNat * 4096 →
      Freeable s pagetable va') :
    ∃ s', uvmunmap s pagetable va npages true = some s' ∧
      Unmapped pagetable va.toNat (va.toNat + npages.toNat * 4096) s s' := by
  have hlast : (va + npages * PGSIZE).toNat = va.toNat + npages.toNat * 4096 := by
    rw [toNat_MAXVA] at hmax
    rw [UInt64.toNat_add, UInt64.toNat_mul, toNat_PGSIZE, Nat.mod_eq_of_lt (by omega),
      Nat.mod_eq_of_lt (by omega)]
  have hm : va % PGSIZE = 0 := UInt64.toNat_inj.mp (by rw [toNat_mod_PGSIZE, ha]; rfl)
  unfold uvmunmap
  rw [if_neg (by simp [hm])]
  rw [← hlast] at hfree ⊢
  exact uvmunmapLoop_spec pagetable _ (UInt64.le_iff_toNat_le.mpr (by rw [hlast]; exact hmax))
    npages.toNat va s (by omega) ha hg hfree

theorem toNat_PGROUNDUP {sz : UInt64} (h : sz ≤ MAXVA) : (PGROUNDUP sz).toNat = (sz.toNat + 4095) / 4096 * 4096 := by
  have hs := UInt64.le_iff_toNat_le.mp h
  rw [toNat_MAXVA] at hs
  have h1 : (sz + PGSIZE).toNat = sz.toNat + 4096 := by
    rw [UInt64.toNat_add, toNat_PGSIZE, Nat.mod_eq_of_lt (by omega)]
  have h2 : (sz + PGSIZE - 1).toNat = sz.toNat + 4095 := by
    rw [UInt64.toNat_sub_of_le _ _ (UInt64.le_iff_toNat_le.mpr (by rw [h1]; simp)), h1]
    simp
  show (PGROUNDDOWN (sz + PGSIZE - 1)).toNat = _
  rw [toNat_PGROUNDDOWN, h2]

/-- `int npages` holds a page count below `2 ^ 31` unchanged. -/
theorem toNat_npages {x : UInt64} (h : x.toNat < 2 ^ 31) : x.toUInt32.toInt32.toInt64.toUInt64.toNat = x.toNat := by
  have h1 : x.toUInt32 = UInt32.ofNat x.toNat := UInt32.toNat_inj.mp (by
    rw [UInt64.toNat_toUInt32, UInt32.toNat_ofNat'])
  rw [h1, UInt32.toInt32_ofNat', Int32.toInt64_ofNat' (by simp [Int32.maxValue]; omega), Int64.toUInt64_ofNat',
    UInt64.toNat_ofNat']
  omega

/-- `uvmdealloc(pagetable, oldsz, newsz)` unmaps and frees the pages of
`[PGROUNDUP(newsz), PGROUNDUP(oldsz))`, and returns `newsz` (or `oldsz`, if not smaller). -/
theorem uvmdealloc_spec {oldsz newsz : UInt64} (hg : Good s pagetable) (hold : oldsz ≤ MAXVA) (hnew : newsz ≤ MAXVA)
    (hfree : ∀ va < MAXVA, (PGROUNDUP newsz).toNat ≤ va.toNat → va.toNat < (PGROUNDUP oldsz).toNat →
      Freeable s pagetable va) :
    ∃ s', uvmdealloc s pagetable oldsz newsz = some (if newsz < oldsz then newsz else oldsz, s') ∧
      Unmapped pagetable (PGROUNDUP newsz).toNat (PGROUNDUP oldsz).toNat s s' := by
  have ho := toNat_PGROUNDUP hold
  have hn := toNat_PGROUNDUP hnew
  have hold' := UInt64.le_iff_toNat_le.mp hold
  rw [toNat_MAXVA] at hold'
  unfold uvmdealloc
  by_cases hge : newsz ≥ oldsz
  · have := UInt64.le_iff_toNat_le.mp hge
    rw [if_pos hge, if_neg (UInt64.not_lt.mpr hge)]
    exact ⟨s, rfl, Unmapped.empty hg (by omega)⟩
  · have hlt := UInt64.not_le.mp hge
    rw [if_neg hge, if_pos hlt]
    by_cases hr : PGROUNDUP newsz < PGROUNDUP oldsz
    · have hr' := UInt64.lt_iff_toNat_lt.mp hr
      rw [if_pos hr]
      -- the page count, and the end of the range it gives back
      have hsub : (PGROUNDUP oldsz - PGROUNDUP newsz).toNat = (PGROUNDUP oldsz).toNat - (PGROUNDUP newsz).toNat :=
        UInt64.toNat_sub_of_le _ _ (UInt64.le_of_lt hr)
      have hcount : ((PGROUNDUP oldsz - PGROUNDUP newsz) / PGSIZE).toNat =
          ((PGROUNDUP oldsz).toNat - (PGROUNDUP newsz).toNat) / 4096 := by
        rw [UInt64.toNat_div, hsub, toNat_PGSIZE]
      have hnp := toNat_npages (x := (PGROUNDUP oldsz - PGROUNDUP newsz) / PGSIZE) (by rw [hcount]; omega)
      rw [hcount] at hnp
      have hend : (PGROUNDUP newsz).toNat + (((PGROUNDUP oldsz - PGROUNDUP newsz) / PGSIZE).toUInt32.toInt32.toInt64.toUInt64).toNat * 4096 =
          (PGROUNDUP oldsz).toNat := by
        rw [hnp]
        omega
      obtain ⟨s', hrun, hu⟩ := uvmunmap_spec hg (by rw [hn]; omega) (by rw [hend, ho, toNat_MAXVA]; omega)
        (by rw [hend]; exact hfree)
      rw [hend] at hu
      exact ⟨s', by simp [hrun], hu⟩
    · have := UInt64.not_lt.mp hr
      rw [if_neg hr]
      exact ⟨s, rfl, Unmapped.empty hg (UInt64.le_iff_toNat_le.mp (UInt64.not_lt.mp hr))⟩

end Unmap

end Xv6Sched.Vm
