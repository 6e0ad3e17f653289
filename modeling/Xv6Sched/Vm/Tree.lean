import Mathlib.Tactic.IntervalCases
import Xv6Sched.Vm.Pagetable

/-!
# Xv6Sched.Vm.Tree — the tree a page table is, and what `walk` does to it

A page table in memory is a tree of depth three: the root, the level-1 tables its valid entries
point to, and the level-0 tables theirs point to (`nodeAt`, one `Node` per path of indices).
`leaf` is the valid level-0 PTE `walk` reaches for `va`.  `TreeOk` says the tables are distinct
non-null pages, so that a store to one entry changes one path; `Good` adds the allocator's free
list and the data pages the leaves map, all apart from each other.

A store that leaves every table page alone changes no table and no leaf (`sameTree_of_frame`).
`walk` with allocation adds tables taken from the head of the free list and changes no leaf
(`Grows`, `walkFrom_alloc_spec`); a store to a leaf's PTE changes that leaf only
(`leaf_stPte`).
-/

namespace Xv6Sched.Vm

/-! ### Indices, entries and PTE encodings -/

theorem PX_lt (l : Nat) (va : UInt64) : (PX l va).toNat < 512 := by
  rw [PX, UInt64.toNat_and]
  exact lt_of_le_of_lt Nat.and_le_right (by decide)

theorem toNat_PX (l : Nat) (hl : l ≤ 2) (va : UInt64) :
    (PX l va).toNat = va.toNat / 2 ^ (12 + 9 * l) % 512 := by
  have hs : (PXSHIFT l).toNat % 64 = 12 + 9 * l := by interval_cases l <;> rfl
  have hm : PXMASK.toNat = 2 ^ 9 - 1 := rfl
  rw [PX, UInt64.toNat_and, UInt64.toNat_shiftRight, hs, Nat.shiftRight_eq_div_pow, hm,
    Nat.and_two_pow_sub_one_eq_mod]

/-- A page below `MAXVA` is its three indices. -/
theorem toNat_div_PGSIZE {va : UInt64} (h : va < MAXVA) :
    va.toNat / 4096 = (PX 0 va).toNat + 512 * (PX 1 va).toNat + 262144 * (PX 2 va).toNat := by
  have h0 : (PX 0 va).toNat = va.toNat / 4096 % 512 := toNat_PX 0 (by omega) va
  have h1 : (PX 1 va).toNat = va.toNat / 2097152 % 512 := toNat_PX 1 (by omega) va
  have h2 : (PX 2 va).toNat = va.toNat / 1073741824 % 512 := toNat_PX 2 (by omega) va
  have hm : va.toNat < 274877906944 := UInt64.lt_iff_toNat_lt.mp h
  omega

/-- Entry `i` of the table at page `t`. -/
theorem toNat_slot {t i : UInt64} (ht : t.toNat % 4096 = 0) (hi : i.toNat < 512) :
    (t + 8 * i).toNat = t.toNat + 8 * i.toNat := by
  have h := t.toNat_lt
  rw [UInt64.toNat_add, UInt64.toNat_mul, UInt64.toNat_ofNat]
  have h8 : 8 % 2 ^ 64 * i.toNat % 2 ^ 64 = 8 * i.toNat := by
    rw [Nat.mod_eq_of_lt (by omega : 8 < 2 ^ 64)]
    exact Nat.mod_eq_of_lt (by omega)
  rw [h8]
  exact Nat.mod_eq_of_lt (by omega)

theorem toNat_PA2PTE_or (p f : UInt64) (hf : f.toNat < 1024) :
    (PA2PTE p ||| f).toNat = 1024 * (p.toNat / 4096) + f.toNat := by
  have hp := p.toNat_lt
  have h : (PA2PTE p).toNat = 1024 * (p.toNat / 4096) := by
    rw [PA2PTE, UInt64.toNat_shiftLeft, UInt64.toNat_shiftRight, Nat.shiftLeft_eq, Nat.shiftRight_eq_div_pow]
    show p.toNat / 2 ^ 12 * 2 ^ 10 % 2 ^ 64 = _
    omega
  rw [UInt64.toNat_or, h, ← Nat.two_pow_add_eq_or_of_lt (i := 10) hf]

/-- A PTE built from an aligned page and flags gives both back. -/
theorem PTE2PA_PA2PTE_or {p f : UInt64} (hp : p.toNat % 4096 = 0) (hf : f.toNat < 1024) :
    PTE2PA (PA2PTE p ||| f) = p := by
  apply UInt64.toNat_inj.mp
  rw [toNat_PTE2PA, toNat_PA2PTE_or p f hf]
  have := p.toNat_lt
  omega

theorem PTE_FLAGS_PA2PTE_or (p : UInt64) {f : UInt64} (hf : f.toNat < 1024) : PTE_FLAGS (PA2PTE p ||| f) = f := by
  apply UInt64.toNat_inj.mp
  have hm : (0x3FF : UInt64).toNat = 2 ^ 10 - 1 := rfl
  rw [PTE_FLAGS, UInt64.toNat_and, toNat_PA2PTE_or p f hf, hm, Nat.and_two_pow_sub_one_eq_mod]
  omega

/-- The valid bit is the low bit. -/
theorem and_PTE_V_ne_zero (x : UInt64) : x &&& PTE_V ≠ 0 ↔ x.toNat % 2 = 1 := by
  have hm : PTE_V.toNat = 2 ^ 1 - 1 := rfl
  rw [Ne, ← UInt64.toNat_inj, UInt64.toNat_and, hm, Nat.and_two_pow_sub_one_eq_mod, UInt64.toNat_zero]
  omega

theorem PA2PTE_or_valid (p f : UInt64) (hf : f.toNat < 1024) (hv : f &&& PTE_V ≠ 0) :
    (PA2PTE p ||| f) &&& PTE_V ≠ 0 := by
  rw [and_PTE_V_ne_zero] at hv ⊢
  rw [toNat_PA2PTE_or p f hf]
  omega

/-! ### The tree -/

/-- The PTE at `a`, if valid. -/
def validPte (m : Nat → UInt8) (a : UInt64) : Option UInt64 :=
  if ldPte m a &&& PTE_V ≠ 0 then some (ldPte m a) else none

/-- The table or page a valid PTE at `a` points to. -/
def child (m : Nat → UInt8) (a : UInt64) : Option UInt64 := (validPte m a).map PTE2PA

/-- A table of the tree, by its path: the root, the level-1 table under root entry `i2`, the
level-0 table under entry `i1` of that. -/
inductive Node
  | root
  | l1 (i2 : UInt64)
  | l0 (i2 i1 : UInt64)
  deriving DecidableEq

/-- A path through entries of tables. -/
def Node.Valid : Node → Prop
  | .root => True
  | .l1 i2 => i2.toNat < 512
  | .l0 i2 i1 => i2.toNat < 512 ∧ i1.toNat < 512

/-- The table at the end of a path, if every entry on it is valid. -/
def nodeAt (m : Nat → UInt8) (pagetable : UInt64) : Node → Option UInt64
  | .root => some pagetable
  | .l1 i2 => child m (pagetable + 8 * i2)
  | .l0 i2 i1 => (child m (pagetable + 8 * i2)).bind fun t => child m (t + 8 * i1)

/-- The address of the level-0 PTE of `va`, if the descent reaches a level-0 table. -/
def slotOf (m : Nat → UInt8) (pagetable va : UInt64) : Option UInt64 :=
  (nodeAt m pagetable (.l0 (PX 2 va) (PX 1 va))).map fun t => t + 8 * PX 0 va

/-- The valid level-0 PTE of `va`. -/
def leaf (m : Nat → UInt8) (pagetable va : UInt64) : Option UInt64 :=
  (slotOf m pagetable va).bind (validPte m)

/-- `q` is a table of the tree. -/
def TablePage (m : Nat → UInt8) (pagetable q : UInt64) : Prop :=
  ∃ n, Node.Valid n ∧ nodeAt m pagetable n = some q

/-- `q` is the page of a valid leaf below `MAXVA`. -/
def DataPage (m : Nat → UInt8) (pagetable q : UInt64) : Prop :=
  ∃ va < MAXVA, ∃ e, leaf m pagetable va = some e ∧ PTE2PA e = q

/-- The bytes of page `q`. -/
def PageBytes (q : UInt64) (b : Nat) : Prop := q.toNat ≤ b ∧ b < q.toNat + 4096

theorem Node.valid_l0 (va : UInt64) : Node.Valid (.l0 (PX 2 va) (PX 1 va)) := ⟨PX_lt 2 va, PX_lt 1 va⟩

theorem Node.valid_l1 (va : UInt64) : Node.Valid (.l1 (PX 2 va)) := PX_lt 2 va

theorem nodeAt_l0 (m : Nat → UInt8) (pagetable i2 i1 : UInt64) :
    nodeAt m pagetable (.l0 i2 i1) = (nodeAt m pagetable (.l1 i2)).bind fun t => child m (t + 8 * i1) := rfl

/-- `walk` without allocation returns the level-0 PTE's address, or `0`. -/
theorem walkFrom_false_eq (va pagetable : UInt64) (s : Phys) :
    (walkFrom va false 2 pagetable s).1 = (slotOf s.mem pagetable va).getD 0 := by
  rw [walkFrom_false_succ, walkFrom_false_succ]
  unfold slotOf nodeAt child validPte
  by_cases h2 : ldPte s.mem (pagetable + 8 * PX 2 va) &&& PTE_V = 0
  · simp [h2]
  · by_cases h1 : ldPte s.mem (PTE2PA (ldPte s.mem (pagetable + 8 * PX 2 va)) + 8 * PX 1 va) &&& PTE_V = 0
    · simp [h2, h1]
    · simp [h2, h1, walkFrom]

/-! ### The invariant -/

/-- The tables of the tree are distinct non-null pages, the root one aligned. -/
structure TreeOk (m : Nat → UInt8) (pagetable : UInt64) : Prop where
  root_aligned : pagetable.toNat % 4096 = 0
  ne_zero : ∀ n q, Node.Valid n → nodeAt m pagetable n = some q → q ≠ 0
  inj : ∀ n n' q, Node.Valid n → Node.Valid n' → nodeAt m pagetable n = some q →
    nodeAt m pagetable n' = some q → n = n'

/-- The free list holds distinct pages between `end` and `PHYSTOP`, `end` above `0`. -/
structure FreeOk (s : Phys) : Prop where
  nodup : s.freelist.Nodup
  page : ∀ p ∈ s.freelist, p.toNat % 4096 = 0 ∧ s.kend ≤ p ∧ p < PHYSTOP
  kend_pos : 0 < s.kend

/-- A page table and the allocator in a state the kernel keeps: the tree's tables, its data
pages and the free pages are apart, and no two leaves map one page. -/
structure Good (s : Phys) (pagetable : UInt64) : Prop where
  tree : TreeOk s.mem pagetable
  free : FreeOk s
  free_table : ∀ q ∈ s.freelist, ¬ TablePage s.mem pagetable q
  free_data : ∀ q ∈ s.freelist, ¬ DataPage s.mem pagetable q
  data_table : ∀ q, DataPage s.mem pagetable q → ¬ TablePage s.mem pagetable q
  data_inj : ∀ va va' e e', va < MAXVA → va' < MAXVA → leaf s.mem pagetable va = some e →
    leaf s.mem pagetable va' = some e' → PTE2PA e = PTE2PA e' → va.toNat / 4096 = va'.toNat / 4096

theorem TreeOk.aligned {m : Nat → UInt8} {pagetable : UInt64} (h : TreeOk m pagetable) :
    ∀ {n q}, nodeAt m pagetable n = some q → q.toNat % 4096 = 0
  | .root, q, hq => by
    cases hq
    exact h.root_aligned
  | .l1 i2, q, hq => by
    obtain ⟨e, -, rfl⟩ := Option.map_eq_some_iff.mp hq
    exact PTE2PA_aligned e
  | .l0 i2 i1, q, hq => by
    obtain ⟨t, -, ht⟩ := Option.bind_eq_some_iff.mp hq
    obtain ⟨e, -, rfl⟩ := Option.map_eq_some_iff.mp ht
    exact PTE2PA_aligned e

theorem TreeOk.tablePage_aligned {m : Nat → UInt8} {pagetable q : UInt64} (h : TreeOk m pagetable)
    (hq : TablePage m pagetable q) : q.toNat % 4096 = 0 := by
  obtain ⟨n, -, hn⟩ := hq
  exact h.aligned hn

theorem FreeOk.ne_zero {s : Phys} (h : FreeOk s) {p : UInt64} (hp : p ∈ s.freelist) : p ≠ 0 := by
  intro h0
  have := (h.page p hp).2.1
  rw [h0] at this
  exact UInt64.not_le.mpr h.kend_pos this

theorem tablePage_root (m : Nat → UInt8) (pagetable : UInt64) : TablePage m pagetable pagetable :=
  ⟨.root, trivial, rfl⟩

/-! ### Stores and the PTEs they keep -/

section Stores

variable {m m' : Nat → UInt8} {W : Nat → Prop}

/-- A PTE whose bytes a store leaves alone. -/
theorem ldPte_of_frame {a : UInt64} (h : Mem.Frame m m' W) (hW : ∀ j < 8, ¬ W (a.toNat + j)) :
    ldPte m' a = ldPte m a :=
  ldPte_congr fun j _ => h _ (hW j ‹_›)

/-- An entry of table `t`, under a store that leaves page `t` alone. -/
theorem ldPte_slot_of_frame {t i : UInt64} (h : Mem.Frame m m' W) (ht : t.toNat % 4096 = 0)
    (hi : i.toNat < 512) (hW : ∀ b, PageBytes t b → ¬ W b) : ldPte m' (t + 8 * i) = ldPte m (t + 8 * i) :=
  ldPte_of_frame h fun j hj => hW _ (by rw [toNat_slot ht hi]; exact ⟨by omega, by omega⟩)

theorem validPte_congr {a : UInt64} (h : ldPte m' a = ldPte m a) : validPte m' a = validPte m a := by
  unfold validPte
  rw [h]

theorem child_congr {a : UInt64} (h : ldPte m' a = ldPte m a) : child m' a = child m a := by
  unfold child
  rw [validPte_congr h]

theorem validPte_zero {a : UInt64} (h : ldPte m a = 0) : validPte m a = none := by
  unfold validPte
  rw [h]
  simp

theorem validPte_eq_some {a e : UInt64} : validPte m a = some e ↔ ldPte m a = e ∧ e &&& PTE_V ≠ 0 := by
  unfold validPte
  split_ifs with h
  · constructor
    · rintro ⟨⟩
      exact ⟨rfl, h⟩
    · rintro ⟨rfl, -⟩
      rfl
  · simp only [false_iff, not_and]
    rintro rfl
    exact h

theorem child_of_validPte {a e : UInt64} (h : validPte m a = some e) : child m a = some (PTE2PA e) := by
  unfold child
  rw [h]
  rfl

theorem frame_stPte (m : Nat → UInt8) (a e : UInt64) :
    Mem.Frame m (stPte m a e) fun b => a.toNat ≤ b ∧ b < a.toNat + 8 := by
  unfold stPte Mem.store
  exact Mem.frame_copy _ _ _ _

theorem frame_fill (m : Nat → UInt8) (p : UInt64) (c : UInt8) :
    Mem.Frame m (Mem.fill m p.toNat PGSIZE.toNat c) (PageBytes p) := by
  unfold Mem.fill PageBytes
  exact Mem.frame_copy _ _ _ _

/-- An entry of a page just filled with zeros. -/
theorem ldPte_fill_zero {p i : UInt64} (hp : p.toNat % 4096 = 0) (hi : i.toNat < 512) :
    ldPte (Mem.fill m p.toNat PGSIZE.toNat 0) (p + 8 * i) = 0 := by
  rw [ldPte, toNat_slot hp hi, Mem.load_fill_zero (by omega) (by rw [toNat_PGSIZE]; omega)]
  rfl

end Stores

/-! ### Stores that leave the tables alone -/

/-- The tree has the same tables and leaves in `m'` as in `m`. -/
def SameTree (m m' : Nat → UInt8) (pagetable : UInt64) : Prop :=
  (∀ n, Node.Valid n → nodeAt m' pagetable n = nodeAt m pagetable n) ∧
    ∀ va, leaf m' pagetable va = leaf m pagetable va

section SameTree

variable {m m' : Nat → UInt8} {pagetable : UInt64}

/-- A leaf is kept when its level-0 table is, and so is its PTE. -/
theorem leaf_eq_of_l0 {va : UInt64}
    (hn : nodeAt m' pagetable (.l0 (PX 2 va) (PX 1 va)) = nodeAt m pagetable (.l0 (PX 2 va) (PX 1 va)))
    (hpte : ∀ t, nodeAt m pagetable (.l0 (PX 2 va) (PX 1 va)) = some t →
      ldPte m' (t + 8 * PX 0 va) = ldPte m (t + 8 * PX 0 va)) :
    leaf m' pagetable va = leaf m pagetable va := by
  unfold leaf slotOf
  rw [hn]
  cases ht : nodeAt m pagetable (.l0 (PX 2 va) (PX 1 va)) with
  | none => simp only [Option.map_none, Option.bind_none]
  | some t =>
    simp only [Option.map_some, Option.bind_some]
    exact validPte_congr (hpte t ht)

/-- The tables are kept by a store that leaves the root and the level-1 tables alone: the
level-0 tables hold only leaves. -/
theorem nodeAt_of_frame {W : Nat → Prop} (hok : TreeOk m pagetable) (h : Mem.Frame m m' W)
    (hroot : ∀ b, PageBytes pagetable b → ¬ W b)
    (hl1 : ∀ i2 t b, i2.toNat < 512 → nodeAt m pagetable (.l1 i2) = some t → PageBytes t b → ¬ W b) :
    ∀ n, Node.Valid n → nodeAt m' pagetable n = nodeAt m pagetable n := by
  have h1 : ∀ i2, i2.toNat < 512 → nodeAt m' pagetable (.l1 i2) = nodeAt m pagetable (.l1 i2) :=
    fun i2 hi2 => child_congr (ldPte_slot_of_frame h hok.root_aligned hi2 hroot)
  have h0 : ∀ i2 i1, i2.toNat < 512 → i1.toNat < 512 →
      nodeAt m' pagetable (.l0 i2 i1) = nodeAt m pagetable (.l0 i2 i1) := by
    intro i2 i1 hi2 hi1
    rw [nodeAt_l0, nodeAt_l0, h1 i2 hi2]
    cases ht : nodeAt m pagetable (.l1 i2) with
    | none => simp only [Option.bind_none]
    | some t =>
      simp only [Option.bind_some]
      exact child_congr (ldPte_slot_of_frame h (hok.aligned ht) hi1 (hl1 i2 t · hi2 ht))
  intro n hn
  match n, hn with
  | .root, _ => rfl
  | .l1 i2, hn => exact h1 i2 hn
  | .l0 i2 i1, hn => exact h0 i2 i1 hn.1 hn.2

/-- Transport: a store that leaves every table page alone keeps the tree. -/
theorem sameTree_of_frame {W : Nat → Prop} (hok : TreeOk m pagetable) (h : Mem.Frame m m' W)
    (hW : ∀ q b, TablePage m pagetable q → PageBytes q b → ¬ W b) : SameTree m m' pagetable := by
  have hn := nodeAt_of_frame hok h (hW _ · (tablePage_root m pagetable))
    fun i2 t b hi2 ht => hW t b ⟨.l1 i2, hi2, ht⟩
  refine ⟨hn, fun va => leaf_eq_of_l0 (hn _ (Node.valid_l0 va)) fun t ht => ?_⟩
  exact ldPte_slot_of_frame h (hok.aligned ht) (PX_lt 0 va) (hW t · ⟨_, Node.valid_l0 va, ht⟩)

theorem TreeOk.of_nodeAt (hok : TreeOk m pagetable)
    (h : ∀ n, Node.Valid n → nodeAt m' pagetable n = nodeAt m pagetable n) : TreeOk m' pagetable where
  root_aligned := hok.root_aligned
  ne_zero n q hn hq := hok.ne_zero n q hn ((h n hn).symm.trans hq)
  inj n n' q hn hn' hq hq' := hok.inj n n' q hn hn' ((h n hn).symm.trans hq) ((h n' hn').symm.trans hq')

theorem tablePage_iff_of_nodeAt (h : ∀ n, Node.Valid n → nodeAt m' pagetable n = nodeAt m pagetable n)
    {q : UInt64} : TablePage m' pagetable q ↔ TablePage m pagetable q := by
  constructor
  · rintro ⟨n, hn, hq⟩
    exact ⟨n, hn, (h n hn).symm.trans hq⟩
  · rintro ⟨n, hn, hq⟩
    exact ⟨n, hn, (h n hn).trans hq⟩

theorem SameTree.tablePage_iff (h : SameTree m m' pagetable) {q : UInt64} :
    TablePage m' pagetable q ↔ TablePage m pagetable q :=
  tablePage_iff_of_nodeAt h.1

theorem SameTree.dataPage_iff (h : SameTree m m' pagetable) {q : UInt64} :
    DataPage m' pagetable q ↔ DataPage m pagetable q := by
  unfold DataPage
  simp only [h.2]

theorem SameTree.treeOk (h : SameTree m m' pagetable) (hok : TreeOk m pagetable) : TreeOk m' pagetable :=
  hok.of_nodeAt h.1

end SameTree

/-! ### Adding a table -/

/-- The store with which `walk` adds table `p` under the invalid entry at `pte`: the page zeroed,
then the PTE `PA2PTE(p) | PTE_V`. -/
def addTable (m : Nat → UInt8) (pte p : UInt64) : Nat → UInt8 :=
  stPte (Mem.fill m p.toNat PGSIZE.toNat 0) pte (PA2PTE p ||| PTE_V)

theorem eq_of_pageBytes {t t' : UInt64} {b : Nat} (ht : t.toNat % 4096 = 0) (ht' : t'.toNat % 4096 = 0)
    (hb : PageBytes t b) (hb' : PageBytes t' b) : t = t' := by
  unfold PageBytes at hb hb'
  exact UInt64.toNat_inj.mp (by omega)

section AddTable

variable {m : Nat → UInt8} {t i p : UInt64}

theorem frame_addTable (ht : t.toNat % 4096 = 0) (hi : i.toNat < 512) :
    Mem.Frame m (addTable m (t + 8 * i) p) fun b => PageBytes p b ∨ PageBytes t b := by
  refine ((frame_fill m p 0).trans (frame_stPte _ (t + 8 * i) _)).mono fun b hb => ?_
  rcases hb with hb | hb
  · exact .inl hb
  · rw [toNat_slot ht hi] at hb
    exact .inr ⟨by omega, by omega⟩

/-- Every other entry outside the new page is kept. -/
theorem ldPte_addTable_of_ne {t' j : UInt64} (ht : t.toNat % 4096 = 0) (hi : i.toNat < 512)
    (hp : p.toNat % 4096 = 0) (ht' : t'.toNat % 4096 = 0) (hj : j.toNat < 512) (hne : t' ≠ p)
    (hne' : t' ≠ t ∨ j ≠ i) : ldPte (addTable m (t + 8 * i) p) (t' + 8 * j) = ldPte m (t' + 8 * j) := by
  have hne1 : t'.toNat ≠ p.toNat := fun h => hne (UInt64.toNat_inj.mp h)
  have hne2 : t'.toNat ≠ t.toNat ∨ j.toNat ≠ i.toNat := by
    rcases hne' with h | h
    · exact .inl fun h' => h (UInt64.toNat_inj.mp h')
    · exact .inr fun h' => h (UInt64.toNat_inj.mp h')
  refine ldPte_of_frame ((frame_fill m p 0).trans (frame_stPte _ (t + 8 * i) _)) fun k hk => ?_
  rw [toNat_slot ht' hj, toNat_slot ht hi]
  unfold PageBytes
  omega

/-- The new entry points to the new page. -/
theorem child_addTable_self (hp : p.toNat % 4096 = 0) : child (addTable m (t + 8 * i) p) (t + 8 * i) = some p := by
  have hv : PTE_V.toNat < 1024 := by decide
  unfold child validPte addTable
  rw [ldPte_stPte, if_pos (PA2PTE_or_valid p PTE_V hv (by decide))]
  simp [PTE2PA_PA2PTE_or hp hv]

/-- The new page's entries are all zero. -/
theorem ldPte_addTable_new {j : UInt64} (ht : t.toNat % 4096 = 0) (hi : i.toNat < 512)
    (hp : p.toNat % 4096 = 0) (hj : j.toNat < 512) (hne : p ≠ t) :
    ldPte (addTable m (t + 8 * i) p) (p + 8 * j) = 0 := by
  have hne1 : p.toNat ≠ t.toNat := fun h => hne (UInt64.toNat_inj.mp h)
  unfold addTable
  rw [ldPte_of_frame (frame_stPte _ (t + 8 * i) _) fun k hk => by
    rw [toNat_slot hp hj, toNat_slot ht hi]; omega]
  exact ldPte_fill_zero hp hj

theorem child_addTable_new {j : UInt64} (ht : t.toNat % 4096 = 0) (hi : i.toNat < 512)
    (hp : p.toNat % 4096 = 0) (hj : j.toNat < 512) (hne : p ≠ t) :
    child (addTable m (t + 8 * i) p) (p + 8 * j) = none := by
  unfold child
  rw [validPte_zero (ldPte_addTable_new ht hi hp hj hne)]
  rfl

end AddTable

section Grow

variable {m : Nat → UInt8} {pagetable p i2 i1 t1 : UInt64}

/-- A node the tree has not got, added as fresh page `p`: the tables stay distinct, one more. -/
theorem TreeOk.grow {m' : Nat → UInt8} {n0 : Node} (hok : TreeOk m pagetable) (hn0 : Node.Valid n0)
    (hnone : nodeAt m pagetable n0 = none) (hp0 : p ≠ 0) (hfresh : ¬ TablePage m pagetable p)
    (h : ∀ n, Node.Valid n → nodeAt m' pagetable n = if n = n0 then some p else nodeAt m pagetable n) :
    TreeOk m' pagetable ∧ ∀ q, TablePage m' pagetable q ↔ TablePage m pagetable q ∨ q = p := by
  have hold : ∀ n q, Node.Valid n → nodeAt m' pagetable n = some q →
      n = n0 ∧ q = p ∨ n ≠ n0 ∧ nodeAt m pagetable n = some q := by
    intro n q hn hq
    rw [h n hn] at hq
    by_cases hn' : n = n0
    · rw [if_pos hn'] at hq
      exact .inl ⟨hn', (Option.some.inj hq).symm⟩
    · rw [if_neg hn'] at hq
      exact .inr ⟨hn', hq⟩
  refine ⟨⟨hok.root_aligned, ?_, ?_⟩, fun q => ⟨?_, ?_⟩⟩
  · intro n q hn hq
    rcases hold n q hn hq with ⟨-, rfl⟩ | ⟨-, hq⟩
    · exact hp0
    · exact hok.ne_zero n q hn hq
  · intro n n' q hn hn' hq hq'
    rcases hold n q hn hq with ⟨rfl, rfl⟩ | ⟨hne, hq⟩ <;>
      rcases hold n' q hn' hq' with ⟨rfl, hq'⟩ | ⟨hne', hq'⟩
    · rfl
    · exact absurd ⟨n', hn', hq'⟩ hfresh
    · exact absurd ⟨n, hn, hq'.symm ▸ hq⟩ hfresh
    · exact hok.inj n n' q hn hn' hq hq'
  · rintro ⟨n, hn, hq⟩
    rcases hold n q hn hq with ⟨-, rfl⟩ | ⟨-, hq⟩
    · exact .inr rfl
    · exact .inl ⟨n, hn, hq⟩
  · rintro (⟨n, hn, hq⟩ | rfl)
    · have hne : n ≠ n0 := by
        rintro rfl
        rw [hnone] at hq
        cases hq
      exact ⟨n, hn, by rw [h n hn, if_neg hne, hq]⟩
    · exact ⟨n0, hn0, by rw [h n0 hn0, if_pos rfl]⟩

/-- `walk` adding table `p` under the invalid root entry `i2`: the tree gains node `l1 i2`. -/
theorem nodeAt_add_root (hok : TreeOk m pagetable) (hi2 : i2.toNat < 512)
    (hnone : child m (pagetable + 8 * i2) = none) (hp : p.toNat % 4096 = 0)
    (hfresh : ¬ TablePage m pagetable p) (n : Node) (hn : Node.Valid n) :
    nodeAt (addTable m (pagetable + 8 * i2) p) pagetable n =
      if n = .l1 i2 then some p else nodeAt m pagetable n := by
  have hroot := hok.root_aligned
  have hpt : p ≠ pagetable := fun h => hfresh (h ▸ tablePage_root m pagetable)
  have hself : nodeAt (addTable m (pagetable + 8 * i2) p) pagetable (.l1 i2) = some p := child_addTable_self hp
  -- the other root entries are kept
  have h1 : ∀ j2, j2.toNat < 512 → j2 ≠ i2 →
      nodeAt (addTable m (pagetable + 8 * i2) p) pagetable (.l1 j2) = nodeAt m pagetable (.l1 j2) :=
    fun j2 hj hne => child_congr (ldPte_addTable_of_ne hroot hi2 hp hroot hj hpt.symm (.inr hne))
  match n, hn with
  | .root, _ =>
    rw [if_neg (by simp)]
    rfl
  | .l1 j2, hj =>
    by_cases h : j2 = i2
    · rw [if_pos (by rw [h]), h, hself]
    · rw [if_neg (by simpa using h)]
      exact h1 j2 hj h
  | .l0 j2 j1, hj =>
    rw [if_neg (by simp), nodeAt_l0, nodeAt_l0]
    by_cases h : j2 = i2
    · -- the new table is all zeros, and the old entry was invalid
      rw [h, hself, show nodeAt m pagetable (.l1 i2) = none from hnone]
      exact child_addTable_new hroot hi2 hp hj.2 hpt
    · rw [h1 j2 hj.1 h]
      cases ht : nodeAt m pagetable (.l1 j2) with
      | none => simp only [Option.bind_none]
      | some t =>
        simp only [Option.bind_some]
        have hne : t ≠ p := fun h' => hfresh ⟨.l1 j2, hj.1, h' ▸ ht⟩
        have hne' : t ≠ pagetable := fun h' => by
          cases hok.inj (.l1 j2) .root t hj.1 trivial ht (by rw [h']; rfl)
        exact child_congr (ldPte_addTable_of_ne hroot hi2 hp (hok.aligned ht) hj.2 hne (.inl hne'))

theorem leaf_add_root (hok : TreeOk m pagetable) (hi2 : i2.toNat < 512)
    (hnone : child m (pagetable + 8 * i2) = none) (hp : p.toNat % 4096 = 0)
    (hfresh : ¬ TablePage m pagetable p) (va : UInt64) :
    leaf (addTable m (pagetable + 8 * i2) p) pagetable va = leaf m pagetable va := by
  refine leaf_eq_of_l0 ?_ fun t ht => ?_
  · rw [nodeAt_add_root hok hi2 hnone hp hfresh _ (Node.valid_l0 va), if_neg (by simp)]
  · have hne : t ≠ p := fun h' => hfresh ⟨_, Node.valid_l0 va, h' ▸ ht⟩
    have hne' : t ≠ pagetable := fun h' => by
      cases hok.inj _ .root t (Node.valid_l0 va) trivial ht (by rw [h']; rfl)
    exact ldPte_addTable_of_ne hok.root_aligned hi2 hp (hok.aligned ht) (PX_lt 0 va) hne (.inl hne')

/-- `walk` adding table `p` under the invalid entry `i1` of level-1 table `t1`: the tree gains
node `l0 i2 i1`. -/
theorem nodeAt_add_l1 (hok : TreeOk m pagetable) (hi2 : i2.toNat < 512) (hi1 : i1.toNat < 512)
    (ht1 : nodeAt m pagetable (.l1 i2) = some t1) (hnone : child m (t1 + 8 * i1) = none)
    (hp : p.toNat % 4096 = 0) (hfresh : ¬ TablePage m pagetable p) (n : Node) (hn : Node.Valid n) :
    nodeAt (addTable m (t1 + 8 * i1) p) pagetable n =
      if n = .l0 i2 i1 then some p else nodeAt m pagetable n := by
  have hroot := hok.root_aligned
  have ht1a := hok.aligned ht1
  have hpt : p ≠ pagetable := fun h => hfresh (h ▸ tablePage_root m pagetable)
  have hp1 : t1 ≠ p := fun h => hfresh ⟨.l1 i2, hi2, h ▸ ht1⟩
  have ht1r : pagetable ≠ t1 := fun h => by
    cases hok.inj .root (.l1 i2) t1 trivial hi2 (by rw [h]; rfl) ht1
  -- the root is kept
  have h1 : ∀ j2, j2.toNat < 512 →
      nodeAt (addTable m (t1 + 8 * i1) p) pagetable (.l1 j2) = nodeAt m pagetable (.l1 j2) :=
    fun j2 hj => child_congr (ldPte_addTable_of_ne ht1a hi1 hp hroot hj hpt.symm (.inl ht1r))
  match n, hn with
  | .root, _ =>
    rw [if_neg (by simp)]
    rfl
  | .l1 j2, hj =>
    rw [if_neg (by simp)]
    exact h1 j2 hj
  | .l0 j2 j1, hj =>
    rw [nodeAt_l0, nodeAt_l0, h1 j2 hj.1]
    by_cases h : j2 = i2 ∧ j1 = i1
    · obtain ⟨rfl, rfl⟩ := h
      rw [if_pos rfl, ht1]
      exact child_addTable_self hp
    · rw [if_neg (by simpa using h)]
      cases ht : nodeAt m pagetable (.l1 j2) with
      | none => simp only [Option.bind_none]
      | some t =>
        simp only [Option.bind_some]
        have hne : t ≠ p := fun h' => hfresh ⟨.l1 j2, hj.1, h' ▸ ht⟩
        -- another entry of `t1`, or an entry of another table
        have hne' : t ≠ t1 ∨ j1 ≠ i1 := by
          by_cases hj2 : j2 = i2
          · subst hj2
            exact .inr fun hj1 => h ⟨rfl, hj1⟩
          · exact .inl fun h' => hj2 (by cases hok.inj (.l1 j2) (.l1 i2) t hj.1 hi2 ht (h' ▸ ht1); rfl)
        exact child_congr (ldPte_addTable_of_ne ht1a hi1 hp (hok.aligned ht) hj.2 hne hne')

theorem leaf_add_l1 (hok : TreeOk m pagetable) (hi2 : i2.toNat < 512) (hi1 : i1.toNat < 512)
    (ht1 : nodeAt m pagetable (.l1 i2) = some t1) (hnone : child m (t1 + 8 * i1) = none)
    (hp : p.toNat % 4096 = 0) (hfresh : ¬ TablePage m pagetable p) (va : UInt64) :
    leaf (addTable m (t1 + 8 * i1) p) pagetable va = leaf m pagetable va := by
  have hnode := nodeAt_add_l1 hok hi2 hi1 ht1 hnone hp hfresh
  have hp1 : p ≠ t1 := fun h => hfresh ⟨.l1 i2, hi2, h ▸ ht1⟩
  by_cases h : PX 2 va = i2 ∧ PX 1 va = i1
  · -- `va` lies under the new table, whose entries are all invalid
    obtain ⟨h2, h1⟩ := h
    have hold : nodeAt m pagetable (.l0 (PX 2 va) (PX 1 va)) = none := by
      rw [h2, h1, nodeAt_l0, ht1]
      exact hnone
    have hnew : nodeAt (addTable m (t1 + 8 * i1) p) pagetable (.l0 (PX 2 va) (PX 1 va)) = some p := by
      rw [hnode _ (Node.valid_l0 va), h2, h1, if_pos rfl]
    have hz : ldPte (addTable m (t1 + 8 * i1) p) (p + 8 * PX 0 va) = 0 :=
      ldPte_addTable_new (hok.aligned ht1) hi1 hp (PX_lt 0 va) hp1
    unfold leaf slotOf
    rw [hold, hnew]
    simp only [Option.map_some, Option.bind_some, Option.map_none, Option.bind_none]
    exact validPte_zero hz
  · refine leaf_eq_of_l0 ?_ fun t ht => ?_
    · rw [hnode _ (Node.valid_l0 va), if_neg (by simpa using h)]
    · have hne : t ≠ p := fun h' => hfresh ⟨_, Node.valid_l0 va, h' ▸ ht⟩
      have hne' : t ≠ t1 := fun h' => by
        cases hok.inj _ (.l1 i2) t (Node.valid_l0 va) hi2 ht (h' ▸ ht1)
      exact ldPte_addTable_of_ne (hok.aligned ht1) hi1 hp (hok.aligned ht) (PX_lt 0 va) hne (.inl hne')

end Grow

/-! ### Growing the tree from the free list -/

/-- The bytes of the tables and of the free pages: all that growing the tree stores to. -/
def Region (s : Phys) (pagetable : UInt64) (b : Nat) : Prop :=
  ∃ q, (TablePage s.mem pagetable q ∨ q ∈ s.freelist) ∧ PageBytes q b

/-- `s'` is `s` with tables taken from the head of the free list and added to the tree; the leaves
are as they were, and only tables and free pages were stored to. -/
structure Grows (pagetable : UInt64) (s s' : Phys) : Prop where
  kend : s'.kend = s.kend
  suffix : s'.freelist <:+ s.freelist
  tables : ∀ q, TablePage s'.mem pagetable q ↔
    TablePage s.mem pagetable q ∨ (q ∈ s.freelist ∧ q ∉ s'.freelist)
  leaves : ∀ va, leaf s'.mem pagetable va = leaf s.mem pagetable va
  frame : Mem.Frame s.mem s'.mem (Region s pagetable)

section Grows

variable {pagetable : UInt64} {s s' s'' : Phys}

theorem Grows.refl (pagetable : UInt64) (s : Phys) : Grows pagetable s s where
  kend := rfl
  suffix := List.suffix_refl _
  tables q := by simp
  leaves _ := rfl
  frame := Mem.Frame.refl _ _

theorem Grows.region_mono (h : Grows pagetable s s') {b : Nat} (hb : Region s' pagetable b) :
    Region s pagetable b := by
  obtain ⟨q, hq, hb⟩ := hb
  refine ⟨q, ?_, hb⟩
  rcases hq with hq | hq
  · rcases (h.tables q).mp hq with hq | hq
    · exact .inl hq
    · exact .inr hq.1
  · exact .inr (h.suffix.subset hq)

theorem Grows.trans (h : Grows pagetable s s') (h' : Grows pagetable s' s'') : Grows pagetable s s'' where
  kend := h'.kend.trans h.kend
  suffix := h'.suffix.trans h.suffix
  tables q := by
    have hsub := h.suffix.subset (a := q)
    have hsub' := h'.suffix.subset (a := q)
    rw [h'.tables, h.tables]
    by_cases hq : q ∈ s'.freelist <;> tauto
  leaves va := (h'.leaves va).trans (h.leaves va)
  frame := (h.frame.trans h'.frame).mono fun _ hb => hb.elim id h.region_mono

theorem Grows.dataPage_iff (h : Grows pagetable s s') {q : UInt64} :
    DataPage s'.mem pagetable q ↔ DataPage s.mem pagetable q := by
  unfold DataPage
  simp only [h.leaves]

/-- Growing keeps the invariant, once the grown tree is known to be one. -/
theorem Good.of_grows (hg : Good s pagetable) (h : Grows pagetable s s') (hok : TreeOk s'.mem pagetable) :
    Good s' pagetable where
  tree := hok
  free :=
    { nodup := hg.free.nodup.sublist h.suffix.sublist
      page := fun p hp => by
        rw [h.kend]
        exact hg.free.page p (h.suffix.subset hp)
      kend_pos := by
        rw [h.kend]
        exact hg.free.kend_pos }
  free_table q hq ht := by
    rcases (h.tables q).mp ht with ht | ht
    · exact hg.free_table q (h.suffix.subset hq) ht
    · exact ht.2 hq
  free_data q hq hd := hg.free_data q (h.suffix.subset hq) (h.dataPage_iff.mp hd)
  data_table q hd ht := by
    have hd := h.dataPage_iff.mp hd
    rcases (h.tables q).mp ht with ht | ht
    · exact hg.data_table q hd ht
    · exact hg.free_data q ht.1 hd
  data_inj va va' e e' hva hva' he he' :=
    hg.data_inj va va' e e' hva hva' ((h.leaves va).symm.trans he) ((h.leaves va').symm.trans he')

/-- `walk` takes the head `p` of the free list and adds it under the invalid entry `i` of table
`t`, as node `n0`. -/
theorem grows_addTable {p t i : UInt64} {rest : List UInt64} {n0 : Node} (hg : Good s pagetable)
    (hfl : s.freelist = p :: rest) (hn0 : Node.Valid n0) (hnone : nodeAt s.mem pagetable n0 = none)
    (ht : TablePage s.mem pagetable t) (hi : i.toNat < 512)
    (hnode : ∀ n, Node.Valid n → nodeAt (addTable s.mem (t + 8 * i) p) pagetable n =
      if n = n0 then some p else nodeAt s.mem pagetable n)
    (hleaf : ∀ va, leaf (addTable s.mem (t + 8 * i) p) pagetable va = leaf s.mem pagetable va) :
    Good { s with mem := addTable s.mem (t + 8 * i) p, freelist := rest } pagetable ∧
      Grows pagetable s { s with mem := addTable s.mem (t + 8 * i) p, freelist := rest } := by
  have hp : p ∈ s.freelist := hfl ▸ List.mem_cons_self
  have hrest : p ∉ rest := (List.nodup_cons.mp (hfl ▸ hg.free.nodup)).1
  obtain ⟨hok, htab⟩ := hg.tree.grow hn0 hnone (hg.free.ne_zero hp) (hg.free_table p hp) hnode
  have hgr : Grows pagetable s { s with mem := addTable s.mem (t + 8 * i) p, freelist := rest } :=
    { kend := rfl
      suffix := hfl ▸ List.suffix_cons p rest
      tables := fun q => by
        rw [htab, hfl]
        by_cases hq : q = p
        · subst hq
          simp [hrest]
        · simp [hq]
      leaves := hleaf
      frame := (frame_addTable (hg.tree.tablePage_aligned ht) hi).mono fun b hb => by
        rcases hb with hb | hb
        · exact ⟨p, .inr hp, hb⟩
        · exact ⟨t, .inl ht, hb⟩ }
  exact ⟨hg.of_grows hgr hok, hgr⟩

end Grows

/-! ### `walk` with allocation -/

@[simp] theorem walkFrom_zero (va : UInt64) (alloc : Bool) (t : UInt64) (s : Phys) :
    walkFrom va alloc 0 t s = (t + 8 * PX 0 va, s) := rfl

theorem walkFrom_true_valid (va : UInt64) (level : Nat) (t : UInt64) (s : Phys)
    (h : ldPte s.mem (t + 8 * PX (level + 1) va) &&& PTE_V ≠ 0) :
    walkFrom va true (level + 1) t s =
      walkFrom va true level (PTE2PA (ldPte s.mem (t + 8 * PX (level + 1) va))) s := by
  rw [walkFrom, if_pos h]

theorem walkFrom_true_nil (va : UInt64) (level : Nat) (t : UInt64) (s : Phys)
    (h : ldPte s.mem (t + 8 * PX (level + 1) va) &&& PTE_V = 0) (hfl : s.freelist = []) :
    walkFrom va true (level + 1) t s = (0, s) := by
  rw [walkFrom, if_neg (not_not.mpr h)]
  simp [kalloc, hfl]

theorem walkFrom_true_cons (va : UInt64) (level : Nat) (t : UInt64) (s : Phys) {p : UInt64}
    {rest : List UInt64} (h : ldPte s.mem (t + 8 * PX (level + 1) va) &&& PTE_V = 0)
    (hfl : s.freelist = p :: rest) (hp : p ≠ 0) :
    walkFrom va true (level + 1) t s =
      walkFrom va true level p { s with mem := addTable s.mem (t + 8 * PX (level + 1) va) p, freelist := rest } := by
  rw [walkFrom, if_neg (not_not.mpr h)]
  simp [kalloc, hfl, hp, addTable, Mem.fill_fill]

/-- What `walk` with allocation returns for `va`: `0` with the free list used up, or the address
of `va`'s level-0 PTE. -/
def WalkResult (pagetable va : UInt64) (r : UInt64 × Phys) : Prop :=
  r.1 = 0 ∧ r.2.freelist = [] ∨ r.1 ≠ 0 ∧ slotOf r.2.mem pagetable va = some r.1

section Walk

variable {s : Phys} {pagetable t1 : UInt64}

theorem child_of_invalid {m : Nat → UInt8} {a : UInt64} (h : ldPte m a &&& PTE_V = 0) : child m a = none := by
  simp [child, validPte, h]

theorem child_of_valid {m : Nat → UInt8} {a : UInt64} (h : ¬ ldPte m a &&& PTE_V = 0) :
    child m a = some (PTE2PA (ldPte m a)) := by
  simp [child, validPte, h]

/-- The address of an entry of a table is not null. -/
theorem slot_ne_zero {t i : UInt64} (h0 : t ≠ 0) (ht : t.toNat % 4096 = 0) (hi : i.toNat < 512) :
    t + 8 * i ≠ 0 := by
  intro h
  have h' := congrArg UInt64.toNat h
  rw [toNat_slot ht hi, UInt64.toNat_zero] at h'
  exact h0 (UInt64.toNat_inj.mp (by rw [UInt64.toNat_zero]; omega))

/-- The level-1 step of `walk(pagetable, va, 1)`, from `va`'s level-1 table. -/
theorem walkFrom_one_spec (hg : Good s pagetable) (va : UInt64)
    (ht1 : nodeAt s.mem pagetable (.l1 (PX 2 va)) = some t1) :
    Good (walkFrom va true 1 t1 s).2 pagetable ∧ Grows pagetable s (walkFrom va true 1 t1 s).2 ∧
      WalkResult pagetable va (walkFrom va true 1 t1 s) := by
  have ht1a := hg.tree.aligned ht1
  by_cases hv : ldPte s.mem (t1 + 8 * PX 1 va) &&& PTE_V = 0
  · cases hfl : s.freelist with
    | nil =>
      rw [walkFrom_true_nil va 0 t1 s hv hfl]
      exact ⟨hg, Grows.refl _ _, .inl ⟨rfl, hfl⟩⟩
    | cons p rest =>
      have hp : p ∈ s.freelist := hfl ▸ List.mem_cons_self
      have hpa := (hg.free.page p hp).1
      have hfresh := hg.free_table p hp
      have hnone := child_of_invalid hv
      rw [walkFrom_true_cons va 0 t1 s hv hfl (hg.free.ne_zero hp)]
      obtain ⟨hg', hgr⟩ := grows_addTable hg hfl (Node.valid_l0 va)
        (by rw [nodeAt_l0, ht1]; exact hnone) ⟨_, Node.valid_l1 va, ht1⟩ (PX_lt 1 va)
        (nodeAt_add_l1 hg.tree (PX_lt 2 va) (PX_lt 1 va) ht1 hnone hpa hfresh)
        (leaf_add_l1 hg.tree (PX_lt 2 va) (PX_lt 1 va) ht1 hnone hpa hfresh)
      simp only [walkFrom_zero, Nat.zero_add]
      refine ⟨hg', hgr, .inr ⟨slot_ne_zero (hg.free.ne_zero hp) hpa (PX_lt 0 va), ?_⟩⟩
      unfold slotOf
      rw [nodeAt_add_l1 hg.tree (PX_lt 2 va) (PX_lt 1 va) ht1 hnone hpa hfresh _ (Node.valid_l0 va), if_pos rfl]
      rfl
  · rw [walkFrom_true_valid va 0 t1 s hv]
    have hnode : nodeAt s.mem pagetable (.l0 (PX 2 va) (PX 1 va)) = some (PTE2PA (ldPte s.mem (t1 + 8 * PX 1 va))) := by
      rw [nodeAt_l0, ht1]
      exact child_of_valid hv
    simp only [walkFrom_zero, Nat.zero_add]
    refine ⟨hg, Grows.refl _ _, .inr ⟨slot_ne_zero (hg.tree.ne_zero _ _ (Node.valid_l0 va) hnode)
      (PTE2PA_aligned _) (PX_lt 0 va), ?_⟩⟩
    unfold slotOf
    rw [hnode]
    rfl

/-- `walk(pagetable, va, 1)` below `MAXVA`: it keeps the invariant and every leaf, adds tables from
the head of the free list, and returns `va`'s level-0 PTE or `0` with the free list used up. -/
theorem walkFrom_alloc_spec (hg : Good s pagetable) (va : UInt64) :
    Good (walkFrom va true 2 pagetable s).2 pagetable ∧ Grows pagetable s (walkFrom va true 2 pagetable s).2 ∧
      WalkResult pagetable va (walkFrom va true 2 pagetable s) := by
  have hroot := hg.tree.root_aligned
  by_cases hv : ldPte s.mem (pagetable + 8 * PX 2 va) &&& PTE_V = 0
  · cases hfl : s.freelist with
    | nil =>
      rw [walkFrom_true_nil va 1 pagetable s hv hfl]
      exact ⟨hg, Grows.refl _ _, .inl ⟨rfl, hfl⟩⟩
    | cons p rest =>
      have hp : p ∈ s.freelist := hfl ▸ List.mem_cons_self
      have hpa := (hg.free.page p hp).1
      have hfresh := hg.free_table p hp
      have hnone := child_of_invalid hv
      rw [walkFrom_true_cons va 1 pagetable s hv hfl (hg.free.ne_zero hp)]
      obtain ⟨hg1, hgr1⟩ := grows_addTable hg hfl (Node.valid_l1 va) hnone (tablePage_root _ _)
        (PX_lt 2 va) (nodeAt_add_root hg.tree (PX_lt 2 va) hnone hpa hfresh)
        (leaf_add_root hg.tree (PX_lt 2 va) hnone hpa hfresh)
      have hnode := nodeAt_add_root hg.tree (PX_lt 2 va) hnone hpa hfresh _ (Node.valid_l1 va)
      rw [if_pos rfl] at hnode
      obtain ⟨hg2, hgr2, hres⟩ := walkFrom_one_spec hg1 va hnode
      exact ⟨hg2, hgr1.trans hgr2, hres⟩
  · rw [walkFrom_true_valid va 1 pagetable s hv]
    exact walkFrom_one_spec hg va (child_of_valid hv)

end Walk

/-! ### Storing to a leaf's PTE -/

theorem PX_eq_of_page {va va' : UInt64} (h : va'.toNat / 4096 = va.toNat / 4096) (l : Nat) (hl : l ≤ 2) :
    PX l va' = PX l va := by
  have h' : ∀ x : UInt64, x.toNat / 2 ^ (12 + 9 * l) = x.toNat / 4096 / 2 ^ (9 * l) := fun x => by
    rw [Nat.div_div_eq_div_mul, pow_add]
    rfl
  apply UInt64.toNat_inj.mp
  rw [toNat_PX l hl, toNat_PX l hl, h', h', h]

theorem validPte_stPte (m : Nat → UInt8) (a e : UInt64) :
    validPte (stPte m a e) a = if e &&& PTE_V ≠ 0 then some e else none := by
  unfold validPte
  rw [ldPte_stPte]

section Leaf

variable {m : Nat → UInt8} {pagetable va a : UInt64}

theorem slotOf_eq (hs : slotOf m pagetable va = some a) :
    ∃ t, nodeAt m pagetable (.l0 (PX 2 va) (PX 1 va)) = some t ∧ a = t + 8 * PX 0 va := by
  obtain ⟨t, ht, rfl⟩ := Option.map_eq_some_iff.mp hs
  exact ⟨t, ht, rfl⟩

theorem leaf_eq_some {e : UInt64} :
    leaf m pagetable va = some e ↔ ∃ a, slotOf m pagetable va = some a ∧ validPte m a = some e :=
  Option.bind_eq_some_iff

/-- A leaf depends on the page only. -/
theorem leaf_of_page {va' : UInt64} (h : va'.toNat / 4096 = va.toNat / 4096) :
    leaf m pagetable va' = leaf m pagetable va := by
  unfold leaf slotOf
  rw [PX_eq_of_page h 2 (by omega), PX_eq_of_page h 1 (by omega), PX_eq_of_page h 0 (by omega)]

/-- The address of a leaf's PTE is not null, and its bytes lie in a table. -/
theorem slotOf_facts (hok : TreeOk m pagetable) (hs : slotOf m pagetable va = some a) :
    a ≠ 0 ∧ ∃ t, TablePage m pagetable t ∧ ∀ j < 8, PageBytes t (a.toNat + j) := by
  obtain ⟨t, ht, rfl⟩ := slotOf_eq hs
  have hta := hok.aligned ht
  have hx := PX_lt 0 va
  refine ⟨slot_ne_zero (hok.ne_zero _ _ (Node.valid_l0 va) ht) hta hx, t, ⟨_, Node.valid_l0 va, ht⟩,
    fun j hj => ?_⟩
  rw [toNat_slot hta hx]
  exact ⟨by omega, by omega⟩

/-- A store to a level-0 PTE keeps every table. -/
theorem nodeAt_stPte_slot (hok : TreeOk m pagetable) (hs : slotOf m pagetable va = some a) (e : UInt64) :
    ∀ n, Node.Valid n → nodeAt (stPte m a e) pagetable n = nodeAt m pagetable n := by
  obtain ⟨t0, ht0, rfl⟩ := slotOf_eq hs
  have ht0a := hok.aligned ht0
  -- the store lies in page `t0`, which is neither the root nor a level-1 table
  have hW : ∀ n t b, Node.Valid n → nodeAt m pagetable n = some t → PageBytes t b →
      (t0 + 8 * PX 0 va).toNat ≤ b ∧ b < (t0 + 8 * PX 0 va).toNat + 8 → n = .l0 (PX 2 va) (PX 1 va) := by
    intro n t b hn ht hb hb'
    have hx := PX_lt 0 va
    rw [toNat_slot ht0a hx] at hb'
    have htt0 : t = t0 := eq_of_pageBytes (hok.aligned ht) ht0a hb ⟨by omega, by omega⟩
    exact hok.inj n _ t hn (Node.valid_l0 va) ht (htt0 ▸ ht0)
  refine nodeAt_of_frame hok (frame_stPte m _ e) (fun b hb hb' => ?_) fun i2 t b hi2 ht hb hb' => ?_
  · cases hW .root pagetable b trivial rfl hb hb'
  · cases hW (.l1 i2) t b hi2 ht hb hb'

/-- A store to `va`'s level-0 PTE changes the leaf of `va`'s page, and no other. -/
theorem leaf_stPte (hok : TreeOk m pagetable) (hva : va < MAXVA) (hs : slotOf m pagetable va = some a)
    (e va' : UInt64) (hva' : va' < MAXVA) :
    leaf (stPte m a e) pagetable va' =
      if va'.toNat / 4096 = va.toNat / 4096 then validPte (stPte m a e) a else leaf m pagetable va' := by
  have hn := nodeAt_stPte_slot hok hs e
  obtain ⟨t0, ht0, rfl⟩ := slotOf_eq hs
  by_cases hsame : va'.toNat / 4096 = va.toNat / 4096
  · rw [if_pos hsame]
    unfold leaf slotOf
    rw [PX_eq_of_page hsame 2 (by omega), PX_eq_of_page hsame 1 (by omega), PX_eq_of_page hsame 0 (by omega),
      hn _ (Node.valid_l0 va), ht0]
    simp only [Option.map_some, Option.bind_some]
  · rw [if_neg hsame]
    refine leaf_eq_of_l0 (hn _ (Node.valid_l0 va')) fun t ht => ldPte_of_frame (frame_stPte m _ e) fun j hj => ?_
    -- another level-0 table, or another entry of the same one
    have hdiff : t.toNat ≠ t0.toNat ∨ (PX 0 va').toNat ≠ (PX 0 va).toNat := by
      by_cases htt : t.toNat = t0.toNat
      · refine .inr fun h0 => hsame ?_
        have hinj := hok.inj _ _ t (Node.valid_l0 va') (Node.valid_l0 va) ht ((UInt64.toNat_inj.mp htt) ▸ ht0)
        injection hinj with h2 h1
        rw [toNat_div_PGSIZE hva', toNat_div_PGSIZE hva, h2, h1, h0]
      · exact .inl htt
    have := PX_lt 0 va
    have := PX_lt 0 va'
    have := hok.aligned ht
    have := hok.aligned ht0
    rw [toNat_slot (hok.aligned ht) (PX_lt 0 va'), toNat_slot (hok.aligned ht0) (PX_lt 0 va)]
    omega

end Leaf

end Xv6Sched.Vm
