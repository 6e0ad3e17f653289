import Xv6Sched.Fs.Dir

/-!
# Xv6Sched.Fs.Namex — `namex` against a walk of the directory tree on disk

A path names a walk: its elements are its non-empty `/`-separated pieces (`components`), and
from the root or the current directory each is looked up in the directory reached so far
(`walk`; `walkParent` stops before the last).  `skipelem` yields exactly these elements, each cut
to `DIRSIZ` bytes, which `namecmp` compares as the whole element (`skipelem_components`).

`namex` follows the walk over the inode table: `ilock` reads each directory's type, `dirlookup`
looks the element up, and `iunlockput` gives the directory back.  Over a directory tree on disk
(`DirTree`: the inodes its entries name are allocated and linked), with the copies the table holds
of on-disk inodes current (`Coherent`), no `iput` of the loop frees an inode, so the loop walks the
disk as it was (`namexLoop_walk`, `namexLoop_walkParent`).  It also returns: with no lock held and
two entries of the table spare, each `iget` finds its inode or a free entry and each `ilock` its
lock free, and the `iput` after each lookup gives back what the `iget` took (`namexLoop_isSome`).
-/

namespace Xv6Sched

open Itable

/-! ### The elements of a path -/

/-- The elements of a path: its non-empty `/`-separated pieces. -/
def components (path : List Char) : List (List Char) :=
  (path.splitOn '/').filter fun w => !w.isEmpty

@[simp] theorem components_nil : components [] = [] := rfl

theorem components_slash (l : List Char) : components ('/' :: l) = components l := by
  simp [components, List.splitOn_eq_splitOnP, List.splitOnP_cons_eq_if_modifyHead]

theorem components_dropWhile : ∀ l : List Char, components (l.dropWhile (· == '/')) = components l
  | [] => rfl
  | c :: l => by
    by_cases hc : c = '/'
    · subst hc
      rw [List.dropWhile_cons_of_pos (by simp), components_dropWhile l, components_slash]
    · rw [List.dropWhile_cons_of_neg (by simpa using hc)]

/-- A path that starts with an element has one. -/
theorem components_cons_ne_nil {c : Char} (hc : c ≠ '/') (l : List Char) : components (c :: l) ≠ [] := by
  obtain ⟨w, ws, hw⟩ := List.exists_cons_of_ne_nil (List.splitOnP_ne_nil (· == '/') l)
  simp [components, List.splitOn_eq_splitOnP, List.splitOnP_cons_eq_if_modifyHead, hc, hw]

/-- An element, then the path after the slash that ends it. -/
theorem components_word {w r : List Char} (hw : ∀ x ∈ w, x ≠ '/') (hne : w ≠ []) :
    components (w ++ '/' :: r) = w :: components r := by
  have hp : ∀ x ∈ w, (x == '/') = false := fun x hx => by simpa using hw x hx
  simp [components, List.splitOn_eq_splitOnP, List.splitOnP_append_cons_of_forall_mem hp, hne]

theorem components_last {w : List Char} (hw : ∀ x ∈ w, x ≠ '/') (hne : w ≠ []) : components w = [w] := by
  have hp : ∀ x ∈ w, (x == '/') = false := fun x hx => by simpa using hw x hx
  simp [components, List.splitOn_eq_splitOnP, List.splitOnP_eq_singleton hp, hne]

theorem components_of_skipelem_none {path : List Char} (h : skipelem path = none) : components path = [] := by
  unfold skipelem at h
  split at h
  · rename_i hs
    rw [← components_dropWhile, hs, components_nil]
  · cases h

/-- The first element `dropWhile` keeps fails the test. -/
theorem dropWhile_head_false {p : Char → Bool} {l m : List Char} {x : Char} (h : l.dropWhile p = x :: m) :
    p x = false := by
  have := List.head_dropWhile_not p (l := l) (by simp [h])
  simp only [h, List.head_cons] at this
  simpa using this

/-- What `skipelem` leaves has an element just when it is not empty: it starts past the slashes. -/
theorem components_dropWhile_eq_nil (l : List Char) :
    l.dropWhile (· == '/') = [] ↔ components (l.dropWhile (· == '/')) = [] := by
  cases hl : l.dropWhile (· == '/') with
  | nil => simp
  | cons y m =>
    have hy : y ≠ '/' := by simpa using dropWhile_head_false hl
    simp [components_cons_ne_nil hy m]

/-- **`skipelem` yields the elements of the path**, each cut to `DIRSIZ` bytes; what it leaves
is empty just when no element is left. -/
theorem skipelem_components {path name rest : List Char} (h : skipelem path = some (name, rest)) :
    ∃ w, components path = w :: components rest ∧ name = w.take DIRSIZ ∧ (rest = [] ↔ components rest = []) := by
  unfold skipelem at h
  split at h
  · cases h
  rename_i c cs hs
  obtain ⟨rfl, rfl⟩ := Prod.mk.inj (Option.some.inj h)
  have hc : c ≠ '/' := by simpa using dropWhile_head_false hs
  refine ⟨_, ?_, rfl, components_dropWhile_eq_nil _⟩
  have hpath : components path =
      components ((c :: cs).takeWhile (· != '/') ++ (c :: cs).dropWhile (· != '/')) := by
    rw [List.takeWhile_append_dropWhile, ← hs, components_dropWhile]
  rw [hpath]
  -- the element is the longest prefix without a slash, and it starts with `c`
  have hw : ∀ x ∈ (c :: cs).takeWhile (· != '/'), x ≠ '/' := fun x hx => by
    simpa using List.all_eq_true.mp List.all_takeWhile x hx
  have hne : (c :: cs).takeWhile (· != '/') ≠ [] := by simp [hc]
  generalize (c :: cs).takeWhile (· != '/') = w at hw hne
  cases hr : (c :: cs).dropWhile (· != '/') with
  | nil => rw [List.append_nil, components_last hw hne, List.dropWhile_nil, components_nil]
  | cons x r =>
    have hx : x = '/' := by simpa using dropWhile_head_false hr
    subst hx
    rw [components_word hw hne, List.dropWhile_cons_of_pos (by simp), components_dropWhile]

/-! ### The walk over the directory tree on disk -/

section Walk

variable (d : Nat → DiskInode)

/-- The inode reached from `inum` by looking up each element of `cs` in the directory reached so
far; `none` when an element is missing or an inode with elements left is not a directory. -/
def walk (inum : Nat) : List (List Char) → Option Nat
  | [] => some inum
  | c :: cs =>
    if (d inum).type ≠ T_DIR then none
    else (findEnt c (d inum).ents 0).bind fun (_, n) => walk n cs

/-- The directory reached by every element of `cs` but the last, and the last; `none` for no
element. -/
def walkParent (inum : Nat) : List (List Char) → Option (Nat × List Char)
  | [] => none
  | [c] => if (d inum).type ≠ T_DIR then none else some (inum, c)
  | c :: c' :: cs =>
    if (d inum).type ≠ T_DIR then none
    else (findEnt c (d inum).ents 0).bind fun (_, n) => walkParent n (c' :: cs)

/-- An allocated inode with a link: `ilock` reads a type, and `iput` does not free it. -/
def Linked (inum : Nat) : Prop := (d inum).type ≠ 0 ∧ (d inum).nlink ≠ 0

instance (inum : Nat) : Decidable (Linked d inum) := inferInstanceAs (Decidable (_ ∧ _))

/-- A directory tree on disk: the root, and every inode a used entry of a directory names, are
allocated and linked. -/
structure DirTree : Prop where
  root : Linked d ROOTINO
  ents : ∀ inum, (d inum).type = T_DIR → ∀ e ∈ (d inum).ents, e.inum ≠ 0 → Linked d e.inum.toNat

variable {d}

theorem walk_cons_of_found {inum off n : Nat} {c : List Char} {cs : List (List Char)}
    (ht : (d inum).type = T_DIR) (hf : findEnt c (d inum).ents 0 = some (off, n)) :
    walk d inum (c :: cs) = walk d n cs := by
  simp [walk, ht, hf]

theorem walk_cons_eq_none {inum : Nat} {c : List Char} {cs : List (List Char)}
    (h : (d inum).type ≠ T_DIR ∨ findEnt c (d inum).ents 0 = none) : walk d inum (c :: cs) = none := by
  rcases h with h | h <;> simp [walk, h]

theorem walkParent_cons_of_found {inum off n : Nat} {c : List Char} {cs : List (List Char)} (hcs : cs ≠ [])
    (ht : (d inum).type = T_DIR) (hf : findEnt c (d inum).ents 0 = some (off, n)) :
    walkParent d inum (c :: cs) = walkParent d n cs := by
  obtain ⟨c', cs', rfl⟩ := List.exists_cons_of_ne_nil hcs
  simp [walkParent, ht, hf]

theorem walkParent_cons_eq_none {inum : Nat} {c : List Char} {cs : List (List Char)}
    (h : (d inum).type ≠ T_DIR ∨ cs ≠ [] ∧ findEnt c (d inum).ents 0 = none) : walkParent d inum (c :: cs) = none := by
  rcases h with h | ⟨hcs, h⟩
  · cases cs <;> simp [walkParent, h]
  · obtain ⟨c', cs', rfl⟩ := List.exists_cons_of_ne_nil hcs
    simp [walkParent, h]

/-- The inode a directory's entry names, in a directory tree, is linked. -/
theorem DirTree.linked_of_findEnt (hT : DirTree d) {inum off n : Nat} {name : List Char}
    (ht : (d inum).type = T_DIR) (hf : findEnt name (d inum).ents 0 = some (off, n)) : Linked d n := by
  obtain ⟨e, he, hm, rfl⟩ := findEnt_mem hf
  exact hT.ents inum ht e he hm.1

end Walk

/-! ### The inode table along the walk -/

/-- The copies of on-disk inodes in the entries with a reference are the disk's. -/
def Coherent (t : Itable) : Prop :=
  ∀ i, 0 < (t.inode i).ref → (t.inode i).valid = true →
    (t.inode i).type = (t.disk (t.inode i).inum).type ∧ (t.inode i).nlink = (t.disk (t.inode i).inum).nlink

/-- The entry the loop holds: a reference to inode `inum`, which the `iput` after it does not
free, as another reference is held or the inode is linked. -/
structure Holds (t : Itable) (ip : Fin NINODE) (inum : Nat) : Prop where
  ref_pos : 0 < (t.inode ip).ref
  inum_eq : (t.inode ip).inum = inum
  keeps : 2 ≤ (t.inode ip).ref ∨ Linked t.disk inum

variable {t t' : Itable} {ip : Fin NINODE} {inum : Nat}

/-- A write of one entry that keeps the others' copies current. -/
theorem Coherent.setInode (hc : Coherent t) {i : Fin NINODE} {x : Inode}
    (hx : 0 < x.ref → x.valid = true → x.type = (t.disk x.inum).type ∧ x.nlink = (t.disk x.inum).nlink) :
    Coherent (t.setInode i x) := by
  intro j
  by_cases hj : j = i
  · subst hj
    simpa using hx
  · simpa [hj] using hc j

/-- A write of an entry with a reference that changes none of the fields `ilock` read. -/
theorem Coherent.setInode_same (hc : Coherent t) {i : Fin NINODE} {x : Inode} (hr : 0 < (t.inode i).ref)
    (hi : x.inum = (t.inode i).inum) (hv : x.valid = (t.inode i).valid) (hty : x.type = (t.inode i).type)
    (hn : x.nlink = (t.inode i).nlink) : Coherent (t.setInode i x) :=
  hc.setInode fun _ hxv => by
    rw [hi, hty, hn]
    exact hc i hr (hv ▸ hxv)

theorem Coherent.iget {dev n : Nat} {i : Fin NINODE} (hc : Coherent t) (hg : t.iget dev n = some (i, t')) :
    Coherent t' := by
  rcases iget_cases hg with ⟨hp, -, -, rfl⟩ | ⟨-, -, rfl⟩
  · exact hc.setInode_same hp rfl rfl rfl rfl
  · -- a recycled entry is not `valid`
    exact hc.setInode fun _ hv => absurd hv (by simp)

theorem Coherent.ilock (hc : Coherent t) (h : t.ilock ip = some t') :
    Coherent t' ∧ t'.disk = t.disk ∧ (t'.inode ip).valid = true := by
  unfold Itable.ilock at h
  dsimp only at h
  split_ifs at h with hr hl hv hd
  · cases h
    exact ⟨hc.setInode_same (by omega) rfl rfl rfl rfl, rfl, by simpa using hv⟩
  · -- the on-disk inode read into the entry
    cases h
    exact ⟨hc.setInode fun _ _ => ⟨rfl, rfl⟩, rfl, by simp⟩

theorem Coherent.iunlock (hc : Coherent t) (h : t.iunlock ip = some t') : Coherent t' ∧ t'.disk = t.disk := by
  unfold Itable.iunlock at h
  dsimp only at h
  split_ifs at h with hl
  cases h
  exact ⟨hc.setInode_same (by simp at hl; omega) rfl rfl rfl rfl, rfl⟩

theorem Holds.mono (hh : Holds t ip inum) (hd : t'.disk = t.disk) (hi : (t'.inode ip).inum = (t.inode ip).inum)
    (hr : (t.inode ip).ref ≤ (t'.inode ip).ref) : Holds t' ip inum :=
  ⟨by have := hh.ref_pos; omega, hi.trans hh.inum_eq, by
    rw [hd]
    rcases hh.keeps with h2 | hl
    · exact .inl (by omega)
    · exact .inr hl⟩

/-- The `iput` of the entry the loop holds does not free it. -/
theorem Holds.keep (hc : Coherent t) (hh : Holds t ip inum) :
    (t.inode ip).ref ≠ 1 ∨ (t.inode ip).valid = false ∨ (t.inode ip).nlink ≠ 0 := by
  rcases hh.keeps with h2 | ⟨-, hn⟩
  · exact .inl (by omega)
  · cases hv : (t.inode ip).valid
    · exact .inr (.inl rfl)
    · refine .inr (.inr ?_)
      rw [(hc ip hh.ref_pos hv).2, hh.inum_eq]
      exact hn

/-- `iunlockput` of the entry the loop holds: one reference less, the disk as it was. -/
theorem iunlockput_keep (hc : Coherent t) (hh : Holds t ip inum) (h : t.iunlockput ip = some t') :
    t'.disk = t.disk ∧ Coherent t' ∧ ∀ j, (t'.inode j).inum = (t.inode j).inum ∧
      (t'.inode j).ref = if j = ip then (t.inode ip).ref - 1 else (t.inode j).ref := by
  obtain ⟨t1, h1, h2⟩ := Option.bind_eq_some_iff.mp h
  obtain ⟨hc1, hd1⟩ := hc.iunlock h1
  obtain ⟨hs1, -, -⟩ := iunlock_spec h1
  have hh1 : Holds t1 ip inum := hh.mono hd1 (hs1 ip).2.2 (hs1 ip).1.ge
  have hkeep := hh1.keep hc1
  rw [iput_of_keep hkeep] at h2
  cases h2
  refine ⟨hd1, hc1.setInode fun hr hv => ?_, fun j => ?_⟩
  · exact hc1 ip (by simp at hr; omega) hv
  · by_cases hj : j = ip
    · subst hj
      simp [(hs1 j).1, (hs1 j).2.2]
    · simp [hj, (hs1 j).1, (hs1 j).2.2]

/-- An `iget` changes no entry that has a reference, beyond one more reference to it. -/
theorem iget_keeps {dev n : Nat} {i j : Fin NINODE} (hg : t.iget dev n = some (i, t')) (hj : 0 < (t.inode j).ref) :
    (t'.inode j).inum = (t.inode j).inum ∧ (t.inode j).ref ≤ (t'.inode j).ref := by
  rcases iget_cases hg with ⟨-, -, -, rfl⟩ | ⟨h0, -, rfl⟩
  · by_cases hji : j = i
    · subst hji
      simp [idup]
    · simp [idup, hji]
  · have hji : j ≠ i := fun e => by rw [e, h0] at hj; exact Nat.lt_irrefl 0 hj
    simp [hji]

/-- `iget` takes one more reference to the entry it returns: a recycled one had none. -/
theorem iget_ref {dev n : Nat} {i : Fin NINODE} (hg : t.iget dev n = some (i, t')) :
    (t'.inode i).ref = (t.inode i).ref + 1 := by
  rcases iget_cases hg with ⟨-, -, -, rfl⟩ | ⟨h0, -, rfl⟩
  · simp [idup]
  · simp [h0]

/-- The loop's step down to the inode an element names: `iget` of it, then `iunlockput` of the
directory the loop held, whose `iput` does not free it.  The disk stays, and the loop holds the new
inode, which the directory tree links. -/
theorem Holds.descend {t1 t2 t3 : Itable} {nm : List Char} {off n : Nat} {next : Fin NINODE}
    (hh1 : Holds t1 ip inum) (hc1 : Coherent t1) (hT : DirTree t1.disk) (hdir : (t1.disk inum).type = T_DIR)
    (hf : findEnt nm (t1.disk inum).ents 0 = some (off, n))
    (hg : t1.iget (t1.inode ip).dev n = some (next, t2)) (h5 : t2.iunlockput ip = some t3) :
    t3.disk = t1.disk ∧ Coherent t3 ∧ Holds t3 next n ∧
      ∀ j, (t3.inode j).ref = if j = ip then (t2.inode ip).ref - 1 else (t2.inode j).ref := by
  obtain ⟨-, hn2, -, hd2⟩ := iget_spec hg
  obtain ⟨hi2, hr2⟩ := iget_keeps hg hh1.ref_pos
  have hh2 : Holds t2 ip inum := hh1.mono hd2 hi2 hr2
  obtain ⟨hd3, hc3, hr3⟩ := iunlockput_keep (hc1.iget hg) hh2 h5
  have hpos : 0 < (t3.inode next).ref := by
    have hpos1 := hh1.ref_pos
    rw [(hr3 next).2]
    split_ifs with hni
    · -- the element names the directory itself, which now has two references
      rw [hni] at hg
      rw [iget_ref hg]
      omega
    · rw [iget_ref hg]
      omega
  refine ⟨hd3.trans hd2, hc3, ⟨hpos, (hr3 next).1.trans hn2, .inr ?_⟩, fun j => (hr3 j).2⟩
  rw [hd3, hd2]
  exact hT.linked_of_findEnt hdir hf

/-- `ilock` of the inode a walk holds keeps the walk's facts, and the type and the entries the
loop then reads are the disk's. -/
theorem Holds.ilock {t1 : Itable} (hc : Coherent t) (hh : Holds t ip inum) (h : t.ilock ip = some t1) :
    Coherent t1 ∧ t1.disk = t.disk ∧ Holds t1 ip inum ∧
      (t1.inode ip).type = (t.disk inum).type ∧ t1.ents ip = (t.disk inum).ents := by
  obtain ⟨hc1, hd1, hv1⟩ := hc.ilock h
  obtain ⟨hs1, -, -⟩ := ilock_spec h
  have hh1 : Holds t1 ip inum := hh.mono hd1 (hs1 ip).2.2 (hs1 ip).1.ge
  refine ⟨hc1, hd1, hh1, ?_, ?_⟩
  · rw [(hc1 ip hh1.ref_pos hv1).1, hh1.inum_eq, hd1]
  · rw [Itable.ents, hh1.inum_eq, hd1]

/-- **One element of `namex`**, from the directory `inum` the loop holds: it stops with `0` (not a
directory, or the element missing), `nameiparent` stops at the last element, or the loop goes on
from the inode the element names, holding it, the disk as it was. -/
theorem namexLoop_elem {np : Bool} {path name nm rest : List Char} {r : Option (Fin NINODE × List Char)}
    (hc : Coherent t) (hT : DirTree t.disk) (hh : Holds t ip inum) (hs : skipelem path = some (nm, rest))
    (hn : t.namexLoop np ip path name = some (r, t')) :
    (r = none ∧ t'.disk = t.disk ∧ Coherent t' ∧
        ((t.disk inum).type ≠ T_DIR ∨ ¬ (np ∧ rest = []) ∧ findEnt nm (t.disk inum).ents 0 = none)) ∨
      ((t.disk inum).type = T_DIR ∧ np ∧ rest = [] ∧ r = some (ip, nm) ∧ t'.disk = t.disk ∧ Coherent t' ∧
        (t'.inode ip).inum = inum) ∨
      ((t.disk inum).type = T_DIR ∧ ¬ (np ∧ rest = []) ∧ ∃ off n next t3,
        findEnt nm (t.disk inum).ents 0 = some (off, n) ∧ t3.disk = t.disk ∧ Coherent t3 ∧ Holds t3 next n ∧
        t3.namexLoop np next rest nm = some (r, t')) := by
  rw [Itable.namexLoop] at hn
  split at hn
  · simp_all
  rename_i nm' rest' hs'
  obtain ⟨rfl, rfl⟩ := Prod.mk.inj (Option.some.inj (hs.symm.trans hs'))
  simp only [bind, Option.bind_eq_some_iff] at hn
  obtain ⟨t1, h1, h2⟩ := hn
  -- the type `namex` tests is the disk's
  obtain ⟨hc1, hd1, hh1, htype, hents⟩ := hh.ilock hc h1
  split_ifs at h2 with ht hpar
  · simp only [Option.bind_eq_some_iff, pure, Option.some.injEq, Prod.mk.injEq] at h2
    obtain ⟨t2, h3, rfl, rfl⟩ := h2
    obtain ⟨hd2, hc2, -⟩ := iunlockput_keep hc1 hh1 h3
    exact .inl ⟨rfl, hd2.trans hd1, hc2, .inl (htype ▸ ht)⟩
  · simp only [Option.bind_eq_some_iff, pure, Option.some.injEq, Prod.mk.injEq] at h2
    obtain ⟨t2, h3, rfl, rfl⟩ := h2
    obtain ⟨hc2, hd2⟩ := hc1.iunlock h3
    obtain ⟨hs2, -, -⟩ := iunlock_spec h3
    exact .inr (.inl ⟨htype ▸ not_not.mp ht, hpar.1, hpar.2, rfl, hd2.trans hd1, hc2,
      (hs2 ip).2.2.trans hh1.inum_eq⟩)
  have hdir : (t.disk inum).type = T_DIR := htype ▸ not_not.mp ht
  change Option.bind (t1.dirlookup ip nm) _ = _ at h2
  obtain ⟨⟨r2, t2⟩, h3, h4⟩ := Option.bind_eq_some_iff.mp h2
  cases hf : findEnt nm (t.disk inum).ents 0 with
  | none =>
    rw [dirlookup_of_not_found (htype ▸ hdir) (hents ▸ hf)] at h3
    obtain ⟨rfl, rfl⟩ := Prod.mk.inj (Option.some.inj h3)
    simp only [Option.bind_eq_some_iff, pure, Option.some.injEq, Prod.mk.injEq] at h4
    obtain ⟨t3, h5, rfl, rfl⟩ := h4
    obtain ⟨hd3, hc3, -⟩ := iunlockput_keep hc1 hh1 h5
    exact .inl ⟨rfl, hd3.trans hd1, hc3, .inr ⟨hpar, rfl⟩⟩
  | some x =>
    obtain ⟨off, n⟩ := x
    rw [dirlookup_of_found (htype ▸ hdir) (hents ▸ hf)] at h3
    obtain ⟨⟨next, t2⟩, hg, he⟩ := Option.map_eq_some_iff.mp h3
    cases he
    simp only [Option.bind_eq_some_iff] at h4
    obtain ⟨t3, h5, h6⟩ := h4
    obtain ⟨hd3, hc3, hh3, -⟩ := hh1.descend hc1 (hd1 ▸ hT) (hd1 ▸ hdir) (hd1 ▸ hf) hg h5
    exact .inr (.inr ⟨hdir, hpar, off, n, next, t3, rfl, hd3.trans hd1, hc3, hh3, h6⟩)

/-- **`namei`'s loop walks the disk**: the inode it returns is the one `walk` reaches, and `0`
is returned just when the walk fails. -/
theorem namexLoop_walk {path name : List Char} {r : Option (Fin NINODE × List Char)}
    (hc : Coherent t) (hT : DirTree t.disk) (hh : Holds t ip inum)
    (hn : t.namexLoop false ip path name = some (r, t')) :
    r.map (fun x => (t'.inode x.1).inum) = walk t.disk inum (components path) ∧ t'.disk = t.disk ∧ Coherent t' := by
  induction t, ip, path, name using Itable.namexLoop.induct false generalizing r t' inum with
  | case1 t ip path name hs hp => cases hp
  | case2 t ip path name hs hp =>
    rw [namexLoop_of_none hs, if_neg hp] at hn
    cases hn
    simp [components_of_skipelem_none hs, walk, hh.inum_eq, hc]
  | case3 t ip path name nm rest hs ih =>
    obtain ⟨w, hcw, rfl, -⟩ := skipelem_components hs
    rw [hcw]
    rcases namexLoop_elem hc hT hh hs hn with
      ⟨rfl, hd, hc', hstop⟩ | ⟨-, hnp, -⟩ | ⟨hdir, -, off, n, next, t3, hf, hd3, hc3, hh3, hl⟩
    · refine ⟨(walk_cons_eq_none ?_).symm, hd, hc'⟩
      rcases hstop with ht | ⟨-, hf⟩
      · exact .inl ht
      · exact .inr (by rwa [findEnt_take] at hf)
    · cases hnp
    · rw [findEnt_take] at hf
      obtain ⟨h1, h2, h3⟩ := ih next t3 hc3 (hd3 ▸ hT) hh3 hl
      rw [walk_cons_of_found hdir hf, h1, hd3, h2, hd3]
      exact ⟨rfl, rfl, h3⟩

/-- **`nameiparent`'s loop walks the disk**: the directory it returns is the one `walkParent`
reaches, with the last element cut to `DIRSIZ` bytes, and `0` is returned just when that walk
fails. -/
theorem namexLoop_walkParent {path name : List Char} {r : Option (Fin NINODE × List Char)}
    (hc : Coherent t) (hT : DirTree t.disk) (hh : Holds t ip inum)
    (hn : t.namexLoop true ip path name = some (r, t')) :
    r.map (fun x => ((t'.inode x.1).inum, x.2)) =
        (walkParent t.disk inum (components path)).map (fun x => (x.1, x.2.take DIRSIZ)) ∧
      t'.disk = t.disk ∧ Coherent t' := by
  induction t, ip, path, name using Itable.namexLoop.induct true generalizing r t' inum with
  | case1 t ip path name hs hp =>
    -- no element at all: the reference is given back
    rw [namexLoop_of_none hs, if_pos hp] at hn
    obtain ⟨t1, h1, he⟩ := Option.map_eq_some_iff.mp hn
    cases he
    rw [iput_of_keep (hh.keep hc)] at h1
    cases h1
    refine ⟨by simp [components_of_skipelem_none hs, walkParent], rfl, hc.setInode fun hr hv => ?_⟩
    exact hc ip (by simp at hr; omega) hv
  | case2 t ip path name hs hp => cases hp rfl
  | case3 t ip path name nm rest hs ih =>
    obtain ⟨w, hcw, rfl, hrest⟩ := skipelem_components hs
    rw [hcw]
    rcases namexLoop_elem hc hT hh hs hn with
      ⟨rfl, hd, hc', hstop⟩ | ⟨hdir, -, hr, rfl, hd, hc', hi⟩ | ⟨hdir, hpar, off, n, next, t3, hf, hd3, hc3, hh3, hl⟩
    · refine ⟨?_, hd, hc'⟩
      rw [walkParent_cons_eq_none]
      · rfl
      rcases hstop with ht | ⟨hpar, hf⟩
      · exact .inl ht
      · exact .inr ⟨fun h => hpar ⟨rfl, hrest.mpr h⟩, by rwa [findEnt_take] at hf⟩
    · -- the last element: its directory, and the element
      rw [hrest.mp hr]
      simp [walkParent, hdir, hi, hd, hc']
    · have hcs : components rest ≠ [] := fun h => hpar ⟨rfl, hrest.mpr h⟩
      rw [findEnt_take] at hf
      obtain ⟨h1, h2, h3⟩ := ih next t3 hc3 (hd3 ▸ hT) hh3 hl
      rw [walkParent_cons_of_found hcs hdir hf, h1, h2, hd3]
      exact ⟨rfl, rfl, h3⟩

/-! ### The loop returns -/

/-- Entry `a` is spare for the loop holding `ip`: free, or `ip` itself held by the loop alone,
which the `iput` after the lookup frees. -/
def Spare (t : Itable) (ip a : Fin NINODE) : Prop := (t.inode a).ref = 0 ∨ a = ip ∧ (t.inode a).ref = 1

/-- Two entries spare for the loop: enough for the `iget` of every lookup. -/
def TwoSpare (t : Itable) (ip : Fin NINODE) : Prop := ∃ a b, a ≠ b ∧ Spare t ip a ∧ Spare t ip b

/-- The held entry is at most one of two spare ones: the other is free. -/
theorem TwoSpare.free (h : TwoSpare t ip) : ∃ a, (t.inode a).ref = 0 := by
  obtain ⟨a, b, hab, ha, hb⟩ := h
  rcases ha with ha | ⟨hai, -⟩
  · exact ⟨a, ha⟩
  rcases hb with hb | ⟨hbi, -⟩
  · exact ⟨b, hb⟩
  exact absurd (hai.trans hbi.symm) hab

/-- A spare entry stays spare over one step of the loop, the `iget` of `next` and the `iput` of
`ip`: a free entry `iget` recycles becomes `next`, held by the loop alone, and `ip` held alone
becomes free. -/
theorem Spare.step {t2 t3 : Itable} {dev n : Nat} {next a : Fin NINODE} (hp : 0 < (t.inode ip).ref)
    (hg : t.iget dev n = some (next, t2))
    (hr3 : ∀ j, (t3.inode j).ref = if j = ip then (t2.inode ip).ref - 1 else (t2.inode j).ref)
    (ha : Spare t ip a) : Spare t3 next a := by
  rcases iget_cases hg with ⟨hpos, -, -, rfl⟩ | ⟨h0, -, rfl⟩
  · -- `next` was in the table, with a reference besides the loop's
    rcases ha with ha | ⟨hai, ha⟩
    · have hai : a ≠ ip := fun e => by rw [e] at ha; omega
      have han : a ≠ next := fun e => by rw [e] at ha; omega
      exact .inl (by simp [hr3, hai, idup, han, ha])
    · rw [hai] at ha
      by_cases han : a = next
      · exact .inr ⟨han, by simp [hr3, hai, idup, ← han, ha]⟩
      · have hin : ip ≠ next := hai ▸ han
        exact .inl (by simp [hr3, hai, idup, Function.update_of_ne hin, ha])
  · -- `next` was free, and is now held by the loop alone
    have hni : next ≠ ip := fun e => by rw [e] at h0; omega
    rcases ha with ha | ⟨hai, ha⟩
    · by_cases han : a = next
      · exact .inr ⟨han, by simp [hr3, han, hni]⟩
      · have hai : a ≠ ip := fun e => by rw [e] at ha; omega
        exact .inl (by simp [hr3, hai, han, ha])
    · rw [hai] at ha
      exact .inl (by simp [hr3, hai, hni.symm, ha])

theorem TwoSpare.step {t2 t3 : Itable} {dev n : Nat} {next : Fin NINODE} (h : TwoSpare t ip)
    (hp : 0 < (t.inode ip).ref) (hg : t.iget dev n = some (next, t2))
    (hr3 : ∀ j, (t3.inode j).ref = if j = ip then (t2.inode ip).ref - 1 else (t2.inode j).ref) :
    TwoSpare t3 next := by
  obtain ⟨a, b, hab, ha, hb⟩ := h
  exact ⟨a, b, hab, ha.step hp hg hr3, hb.step hp hg hr3⟩

/-- A free entry is spare for the loop after the `iget` that starts it, which takes at most that
one, and then for the loop alone. -/
theorem spare_iget {dev n : Nat} {i a : Fin NINODE} (hg : t.iget dev n = some (i, t'))
    (ha : (t.inode a).ref = 0) : Spare t' i a := by
  rcases iget_cases hg with ⟨hpos, -, -, rfl⟩ | ⟨-, -, rfl⟩
  · have hai : a ≠ i := fun e => by rw [e] at ha; omega
    exact .inl (by simp [idup, hai, ha])
  · by_cases hai : a = i
    · exact .inr ⟨hai, by simp [hai]⟩
    · exact .inl (by simp [hai, ha])

/-- A free entry is spare for the loop after the `idup` of the current directory, held already. -/
theorem spare_idup {c a : Fin NINODE} (hr : 0 < (t.inode c).ref) (ha : (t.inode a).ref = 0) :
    Spare (t.idup c) c a := by
  have hac : a ≠ c := fun e => by rw [e] at ha; omega
  exact .inl (by simp [idup, hac, ha])

/-- `ilock` of an entry with a reference and its lock free panics only on an inode with no type. -/
theorem ilock_isSome {i : Fin NINODE} (hr : 0 < (t.inode i).ref) (hl : (t.inode i).locked = false)
    (hty : (t.disk (t.inode i).inum).type ≠ 0) : (t.ilock i).isSome := by
  unfold Itable.ilock
  simp only [hl]
  split_ifs <;> simp_all

/-- `iput` panics only on a locked inode it frees. -/
theorem iput_isSome {i : Fin NINODE} (hl : (t.inode i).locked = false) : (t.iput i).isSome := by
  unfold Itable.iput
  dsimp only
  split_ifs <;> simp_all

/-- `iget` panics only with every entry of the table in use. -/
theorem iget_isSome (dev n : Nat) {a : Fin NINODE} (ha : (t.inode a).ref = 0) : (t.iget dev n).isSome := by
  cases hg : t.iget dev n with
  | none => exact absurd (iget_eq_none hg a) (by omega)
  | some _ => rfl

theorem iunlockput_locks {i : Fin NINODE} (h : t.iunlockput i = some t') :
    t'.locks = Function.update t.locks i false := by
  obtain ⟨t1, h1, h2⟩ := Option.bind_eq_some_iff.mp h
  rw [iput_locks h2, (iunlock_spec h1).2.1]

theorem iunlockput_isSome {i : Fin NINODE} (hr : 0 < (t.inode i).ref) (hl : (t.inode i).locked = true) :
    (t.iunlockput i).isSome := by
  have h1 : t.iunlock i = some (t.setInode i { t.inode i with locked := false }) := by
    unfold Itable.iunlock
    rw [if_neg (by simp [hl]; omega)]
  rw [Itable.iunlockput, h1, Option.bind_some]
  exact iput_isSome (by simp)

/-- **`namex`'s loop returns**, over a directory tree, with the inode it holds allocated, no lock
held and two entries spare: each `ilock` finds its lock free and reads a type, and each `iget`
finds the inode in the table or a free entry.  By induction along the loop, which keeps all four. -/
theorem namexLoop_isSome {np : Bool} {path name : List Char}
    (hc : Coherent t) (hT : DirTree t.disk) (hh : Holds t ip inum) (hty : (t.disk inum).type ≠ 0)
    (hl : t.locks = fun _ => false) (hsp : TwoSpare t ip) :
    (t.namexLoop np ip path name).isSome := by
  induction t, ip, path, name using Itable.namexLoop.induct np generalizing inum with
  | case1 t ip path name hs hp =>
    rw [namexLoop_of_none hs, if_pos hp, Option.isSome_map]
    exact iput_isSome (congrFun hl ip)
  | case2 t ip path name hs hp =>
    rw [namexLoop_of_none hs, if_neg hp]
    rfl
  | case3 t ip path name nm rest hs ih =>
    obtain ⟨t1, h1⟩ := Option.isSome_iff_exists.mp
      (ilock_isSome hh.ref_pos (congrFun hl ip) (hh.inum_eq ▸ hty))
    obtain ⟨hc1, hd1, hh1, htype, hents⟩ := hh.ilock hc h1
    obtain ⟨hs1, hL1, -⟩ := ilock_spec h1
    have hlk1 : (t1.inode ip).locked = true := by
      have := congrFun hL1 ip
      simpa [locks] using this
    rw [Itable.namexLoop]
    split
    · simp_all
    rename_i nm' rest' hs'
    obtain ⟨rfl, rfl⟩ := Prod.mk.inj (Option.some.inj (hs.symm.trans hs'))
    simp only [bind, h1, Option.bind_some]
    split_ifs with ht hpar
    · -- not a directory: `iunlockput`
      obtain ⟨t2, h2⟩ := Option.isSome_iff_exists.mp (iunlockput_isSome hh1.ref_pos hlk1)
      simp [h2]
    · -- `nameiparent` at the last element: `iunlock`
      have h2 : t1.iunlock ip = some (t1.setInode ip { t1.inode ip with locked := false }) := by
        unfold Itable.iunlock
        rw [if_neg (by simp [hlk1]; have := hh1.ref_pos; omega)]
      simp [h2]
    have hdir : (t.disk inum).type = T_DIR := htype ▸ not_not.mp ht
    cases hf : findEnt nm (t.disk inum).ents 0 with
    | none =>
      rw [dirlookup_of_not_found (htype ▸ hdir) (hents ▸ hf)]
      obtain ⟨t2, h2⟩ := Option.isSome_iff_exists.mp (iunlockput_isSome hh1.ref_pos hlk1)
      simp [h2]
    | some x =>
      obtain ⟨off, n⟩ := x
      rw [dirlookup_of_found (htype ▸ hdir) (hents ▸ hf)]
      -- the `iget` of the element finds a free entry if not the inode
      obtain ⟨a, ha⟩ := hsp.free
      obtain ⟨⟨next, t2⟩, hg⟩ := Option.isSome_iff_exists.mp
        (iget_isSome (t1.inode ip).dev n (a := a) (by rw [(hs1 a).1]; exact ha))
      obtain ⟨-, -, hL2, -⟩ := iget_spec hg
      have hlk2 : (t2.inode ip).locked = true := by
        have := congrFun hL2 ip
        simp only [locks] at this
        rw [this, hlk1]
      obtain ⟨-, hr2⟩ := iget_keeps hg hh1.ref_pos
      obtain ⟨t3, h5⟩ := Option.isSome_iff_exists.mp
        (iunlockput_isSome (Nat.lt_of_lt_of_le hh1.ref_pos hr2) hlk2)
      simp only [hg, Option.map_some, Option.bind_some, h5]
      obtain ⟨hd3, hc3, hh3, hr3⟩ := hh1.descend hc1 (hd1 ▸ hT) (hd1 ▸ hdir) (hd1 ▸ hf) hg h5
      -- the locks are as at the start, none held
      have hl3 : t3.locks = fun _ => false := by
        rw [iunlockput_locks h5, hL2, hL1, update_lock_unlock (congrFun hl ip), hl]
      have hsp1 : TwoSpare t1 ip := by
        obtain ⟨a', b', hab, ha', hb'⟩ := hsp
        refine ⟨a', b', hab, ?_, ?_⟩ <;> simp only [Spare, (hs1 _).1] <;> assumption
      exact ih next t3 hc3 (hd3 ▸ hd1 ▸ hT) hh3 (by rw [hd3, hd1]; exact (hT.linked_of_findEnt hdir hf).1)
        hl3 (hsp1.step hh1.ref_pos hg hr3)

/-! ### `namei` and `nameiparent` -/

/-- Where `namex` starts: the root for a path that starts with `/`, else the current directory. -/
def startInum (t : Itable) (cwd : Option (Fin NINODE)) (path : List Char) : Nat :=
  if path.head? = some '/' then ROOTINO else (cwd.map fun c => (t.inode c).inum).getD 0

/-- The loop holds the root after `namex`'s `iget` of it: linked in a directory tree. -/
theorem Holds.iget_root (hT : DirTree t.disk) (hg : t.iget ROOTDEV ROOTINO = some (ip, t')) :
    Holds t' ip ROOTINO := by
  obtain ⟨-, hi, -, hd⟩ := iget_spec hg
  exact ⟨by rw [iget_ref hg]; omega, hi, .inr (hd ▸ hT.root)⟩

/-- The loop holds the current directory after `idup`: the caller holds another reference. -/
theorem Holds.idup {c : Fin NINODE} (hr : 0 < (t.inode c).ref) : Holds (t.idup c) c (t.inode c).inum :=
  ⟨by simp [Itable.idup], by simp [Itable.idup], .inl (by simp [Itable.idup]; omega)⟩

/-- `namex` takes a reference to the inode it starts from, which the loop then holds. -/
theorem namex_start {cwd : Option (Fin NINODE)} {path : List Char} {np : Bool}
    {r : Option (Fin NINODE × List Char)} (hc : Coherent t) (hT : DirTree t.disk)
    (hcwd : ∀ c, cwd = some c → 0 < (t.inode c).ref) (hn : t.namex cwd path np = some (r, t')) :
    ∃ ip t1, Coherent t1 ∧ t1.disk = t.disk ∧ Holds t1 ip (startInum t cwd path) ∧
      t1.namexLoop np ip path [] = some (r, t') := by
  unfold Itable.namex at hn
  unfold startInum
  split_ifs at hn ⊢ with hroot
  · obtain ⟨⟨ip, t1⟩, hg, hl⟩ := Option.bind_eq_some_iff.mp hn
    exact ⟨ip, t1, hc.iget hg, (iget_spec hg).2.2.2, Holds.iget_root hT hg, hl⟩
  · cases hcw : cwd with
    | none => rw [hcw] at hn; cases hn
    | some c =>
      rw [hcw] at hn
      -- the second reference, to the current directory
      exact ⟨c, t.idup c, hc.setInode_same (hcwd c hcw) rfl rfl rfl rfl, rfl, Holds.idup (hcwd c hcw), hn⟩

/-- **`namex` returns**, from the root or from a current directory the caller holds whose inode is
allocated, over a directory tree with no lock held and two entries of the table free. -/
theorem namex_isSome {cwd : Option (Fin NINODE)} {path : List Char} {np : Bool}
    (hc : Coherent t) (hT : DirTree t.disk) (hcwd : ∀ c, cwd = some c → 0 < (t.inode c).ref)
    (hl : t.locks = fun _ => false) (hfree : ∃ a b, a ≠ b ∧ (t.inode a).ref = 0 ∧ (t.inode b).ref = 0)
    (hstart : path.head? ≠ some '/' → ∃ c, cwd = some c ∧ (t.disk (t.inode c).inum).type ≠ 0) :
    (t.namex cwd path np).isSome := by
  obtain ⟨a, b, hab, ha, hb⟩ := hfree
  unfold Itable.namex
  split_ifs with hroot
  · obtain ⟨⟨ip, t1⟩, hg⟩ := Option.isSome_iff_exists.mp (iget_isSome ROOTDEV ROOTINO ha)
    obtain ⟨-, -, hL, hd⟩ := iget_spec hg
    rw [hg, Option.bind_some]
    exact namexLoop_isSome (hc.iget hg) (hd ▸ hT) (Holds.iget_root hT hg) (hd ▸ hT.root.1) (hL.trans hl)
      ⟨a, b, hab, spare_iget hg ha, spare_iget hg hb⟩
  · obtain ⟨c, rfl, hty⟩ := hstart hroot
    have hr := hcwd c rfl
    exact namexLoop_isSome (hc.setInode_same hr rfl rfl rfl rfl) hT (Holds.idup hr) hty
      (by rw [idup_locks]; exact hl) ⟨a, b, hab, spare_idup hr ha, spare_idup hr hb⟩

/-- For every table whose entries with a reference have distinct keys and current copies of
their on-disk inodes, every directory tree on disk, every current directory the caller holds and
every path: `namei` returns the inode `walk` reaches from the root or the current directory over
the path's elements, `0` just when the walk fails, and `nameiparent` the directory `walkParent`
reaches with the last element; neither writes the disk, every reference count is as it was but
for the one returned, and every lock is as it was.  Both do return, with no lock held, two entries
of the table free and, for a relative path, a current directory whose inode is allocated. -/
theorem namei_walks {cwd : Option (Fin NINODE)} {path : List Char}
    (hu : ∀ i j, 0 < (t.inode i).ref → 0 < (t.inode j).ref → (t.inode i).dev = (t.inode j).dev →
      (t.inode i).inum = (t.inode j).inum → i = j)
    (hc : Coherent t) (hT : DirTree t.disk) (hcwd : ∀ c, cwd = some c → 0 < (t.inode c).ref) :
    (∀ r t', t.namei cwd path = some (r, t') →
      r.map (fun i => (t'.inode i).inum) = walk t.disk (startInum t cwd path) (components path) ∧
      t'.disk = t.disk ∧ (∀ i, (t'.inode i).ref = (t.inode i).ref + (refOf r).count i.val) ∧
      t'.locks = t.locks) ∧
    (∀ r t', t.nameiparent cwd path = some (r, t') →
      r.map (fun x => ((t'.inode x.1).inum, x.2)) =
        (walkParent t.disk (startInum t cwd path) (components path)).map (fun x => (x.1, x.2.take DIRSIZ)) ∧
      t'.disk = t.disk ∧ (∀ i, (t'.inode i).ref = (t.inode i).ref + (refOf (r.map Prod.fst)).count i.val) ∧
      t'.locks = t.locks) ∧
    ((∀ i, (t.inode i).locked = false) → (∃ a b, a ≠ b ∧ (t.inode a).ref = 0 ∧ (t.inode b).ref = 0) →
      (path.head? ≠ some '/' → ∃ c, cwd = some c ∧ (t.disk (t.inode c).inum).type ≠ 0) →
      (t.namei cwd path).isSome ∧ (t.nameiparent cwd path).isSome) := by
  -- the references as they are, none of them the call's
  have hR : RefOk t (fun i => (t.inode i).ref) [] := ⟨fun i => by simp, hu⟩
  refine ⟨fun r t' hn => ?_, fun r t' hn => ?_, fun hl hfree hstart => ?_⟩
  · obtain ⟨⟨r0, t1⟩, h1, he⟩ := Option.map_eq_some_iff.mp hn
    obtain ⟨rfl, rfl⟩ := Prod.mk.inj he
    obtain ⟨ip, t2, hc2, hd2, hh2, hl⟩ := namex_start hc hT hcwd h1
    obtain ⟨hw, hd, -⟩ := namexLoop_walk hc2 (hd2 ▸ hT) hh2 hl
    obtain ⟨hR', hL⟩ := hR.namei hcwd hn
    refine ⟨?_, hd.trans hd2, fun i => by simpa using hR'.ref_eq i, hL⟩
    rw [← hd2, ← hw, Option.map_map]
    rfl
  · obtain ⟨ip, t2, hc2, hd2, hh2, hl⟩ := namex_start hc hT hcwd hn
    obtain ⟨hw, hd, -⟩ := namexLoop_walkParent hc2 (hd2 ▸ hT) hh2 hl
    obtain ⟨hR', hL⟩ := hR.namex hcwd hn
    exact ⟨hd2 ▸ hw, hd.trans hd2, fun i => by simpa using hR'.ref_eq i, hL⟩
  · have hl' : t.locks = fun _ => false := funext hl
    exact ⟨by rw [Itable.namei, Option.isSome_map]; exact namex_isSome hc hT hcwd hl' hfree hstart,
      namex_isSome hc hT hcwd hl' hfree hstart⟩

/-- A disk whose root holds one file, `a`, inode `2`. -/
def rootWithA (n : Nat) : DiskInode :=
  if n = ROOTINO then ⟨T_DIR, 0, 0, 1, [⟨2, ['a']⟩]⟩
  else if n = 2 then ⟨T_FILE, 0, 0, 1, []⟩
  else DiskInode.zero

theorem rootWithA_dirTree : DirTree rootWithA := by
  refine ⟨by decide, fun inum ht e he hne => ?_⟩
  by_cases h1 : inum = ROOTINO
  · subst h1
    simp [rootWithA] at he
    subst he
    decide
  · by_cases h2 : inum = 2
    · subst h2
      exact absurd ht (by decide)
    · simp [rootWithA, h1, h2, DiskInode.zero] at he

/-- From boot over a root holding `a`, `namei("/a")` returns, and returns inode `2`. -/
theorem namei_walks_boot :
    DirTree rootWithA ∧ ((Itable.boot rootWithA).namei none ['/', 'a']).isSome ∧
      ∀ r t', (Itable.boot rootWithA).namei none ['/', 'a'] = some (r, t') →
        r.map (fun i => (t'.inode i).inum) = some 2 := by
  have hw := @namei_walks (Itable.boot rootWithA) none ['/', 'a']
    (fun i _ hi => absurd hi (Nat.lt_irrefl 0)) (fun i hi => absurd hi (Nat.lt_irrefl 0)) rootWithA_dirTree
    (fun c hc => by cases hc)
  refine ⟨rootWithA_dirTree, (hw.2.2 (fun _ => rfl) ⟨⟨0, by decide⟩, ⟨1, by decide⟩, by decide, rfl, rfl⟩
    (fun h => absurd rfl h)).1, fun r t' hn => ?_⟩
  rw [(hw.1 r t' hn).1]
  decide

end Xv6Sched
