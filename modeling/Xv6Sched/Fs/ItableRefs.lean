import Xv6Sched.Fs.Itable

/-!
# Xv6Sched.Fs.ItableRefs — every inode reference counted, every sleep-lock given back

`RefOk t ext loc` is the invariant of the inode table at every point of a system call: each
entry's `ref` is `ext i`, the references held outside the call (open files and `cwd`s, which
the call does not touch while it works in the table), plus the references the call holds in its
local variables, `loc`; and two entries with references are two different inodes `(dev, inum)`.

`iget` and `idup` put a reference into `loc`, `iput` takes one out, and every other function
leaves the references and the keys as they are (`SameRefs`).  The locks are followed apart:
`ilock` takes an entry's lock, `iunlock` gives it back, and nothing else changes `locks`.  Each
function on directories and paths is a chain of these, its error paths included: `dirlink`
keeps the references and the locks (`RefOk.dirlink`), and `namex` leaves the locks as it found
them and `loc` with one reference more, to the inode it returns (`RefOk.namex`).
-/

namespace Xv6Sched

namespace Itable

/-- The sleep-locks held. -/
def locks (t : Itable) (i : Fin NINODE) : Bool := (t.inode i).locked

/-- `t'` has the references and the keys of `t`: it differs in the locks, the copies of the
on-disk inodes, and the disk. -/
def SameRefs (t t' : Itable) : Prop :=
  ∀ j, (t'.inode j).ref = (t.inode j).ref ∧ (t'.inode j).dev = (t.inode j).dev ∧
    (t'.inode j).inum = (t.inode j).inum

theorem SameRefs.refl (t : Itable) : SameRefs t t := fun _ => ⟨rfl, rfl, rfl⟩

theorem SameRefs.trans {t t' t'' : Itable} (h : SameRefs t t') (h' : SameRefs t' t'') :
    SameRefs t t'' := fun j =>
  ⟨(h' j).1.trans (h j).1, (h' j).2.1.trans (h j).2.1, (h' j).2.2.trans (h j).2.2⟩

theorem SameRefs.of_inode {t t' : Itable} (h : t'.inode = t.inode) : SameRefs t t' := by
  intro j
  rw [h]
  exact ⟨rfl, rfl, rfl⟩

/-- A write of entry `i` that keeps its reference count and its key. -/
theorem sameRefs_setInode (t : Itable) (i : Fin NINODE) (ip : Inode) (hr : ip.ref = (t.inode i).ref)
    (hd : ip.dev = (t.inode i).dev) (hn : ip.inum = (t.inode i).inum) : SameRefs t (t.setInode i ip) := by
  intro j
  by_cases hj : j = i
  · subst hj
    simp [hr, hd, hn]
  · simp [hj]

end Itable

open Itable

variable {t t' : Itable} {i : Fin NINODE} {ext : Fin NINODE → Nat} {loc : List Nat}

/-! ### What each function does to an entry -/

theorem ilock_spec (h : t.ilock i = some t') :
    SameRefs t t' ∧ t'.locks = Function.update t.locks i true ∧ t.locks i = false := by
  unfold ilock at h
  dsimp only at h
  split_ifs at h with hr hl hv hd
  · cases h
    refine ⟨sameRefs_setInode _ _ _ rfl rfl rfl, ?_, by simpa [locks] using hl⟩
    funext j
    by_cases hj : j = i
    · subst hj; simp [locks]
    · simp [locks, hj]
  · cases h
    refine ⟨sameRefs_setInode _ _ _ rfl rfl rfl, ?_, by simpa [locks] using hl⟩
    funext j
    by_cases hj : j = i
    · subst hj; simp [locks]
    · simp [locks, hj]

theorem iunlock_spec (h : t.iunlock i = some t') :
    SameRefs t t' ∧ t'.locks = Function.update t.locks i false ∧ t.locks i = true := by
  unfold iunlock at h
  dsimp only at h
  split_ifs at h with hl
  cases h
  have hlk : (t.inode i).locked = true := by
    cases h' : (t.inode i).locked
    · simp [h'] at hl
    · rfl
  refine ⟨sameRefs_setInode _ _ _ rfl rfl rfl, ?_, hlk⟩
  funext j
  by_cases hj : j = i
  · subst hj; simp [locks]
  · simp [locks, hj]

/-- `iput` takes one reference from entry `i` and changes no other count, key or lock. -/
theorem iput_spec (h : t.iput i = some t') (j : Fin NINODE) :
    (t'.inode j).ref = (if j = i then (t.inode i).ref - 1 else (t.inode j).ref) ∧
    (t'.inode j).dev = (t.inode j).dev ∧ (t'.inode j).inum = (t.inode j).inum ∧
    (t'.inode j).locked = (t.inode j).locked := by
  unfold Itable.iput at h
  dsimp only at h
  split_ifs at h <;> cases h <;> by_cases hj : j = i <;> simp [hj]

theorem iput_locks (h : t.iput i = some t') : t'.locks = t.locks := by
  funext j
  exact (iput_spec h j).2.2.2

/-- What `iget` can do: take one more reference to the entry that is the inode already, or
recycle a free entry for it when none is. -/
theorem iget_cases {dev inum : Nat} (hg : t.iget dev inum = some (i, t')) :
    (0 < (t.inode i).ref ∧ (t.inode i).dev = dev ∧ (t.inode i).inum = inum ∧ t' = t.idup i) ∨
    ((t.inode i).ref = 0 ∧
      (∀ j, 0 < (t.inode j).ref → (t.inode j).dev = dev → (t.inode j).inum ≠ inum) ∧
      t' = t.setInode i { t.inode i with dev := dev, inum := inum, ref := 1, valid := false }) := by
  unfold Itable.iget at hg
  split at hg
  · rename_i j hj
    obtain ⟨rfl, rfl⟩ := Prod.mk.inj (Option.some.inj hg)
    have := Scan.firstFin_spec hj
    simp only [Bool.and_eq_true, decide_eq_true_eq, beq_iff_eq] at this
    exact .inl ⟨this.1.1, this.1.2, this.2, rfl⟩
  · rename_i hnone
    cases hf : Scan.firstFin fun i => (t.inode i).ref == 0 with
    | none => rw [hf] at hg; cases hg
    | some j =>
      rw [hf] at hg
      obtain ⟨rfl, rfl⟩ := Prod.mk.inj (Option.some.inj hg)
      refine .inr ⟨by simpa using Scan.firstFin_spec hf, fun k hk hd hn => ?_, rfl⟩
      have := Scan.firstFin_eq_none.mp hnone k
      simp [hk, hd, hn] at this

/-- `iget` panics with `no inodes` only when every entry has a reference. -/
theorem iget_eq_none {dev inum : Nat} (hg : t.iget dev inum = none) (j : Fin NINODE) :
    0 < (t.inode j).ref := by
  unfold Itable.iget at hg
  split at hg
  · cases hg
  · have hf := Option.map_eq_none_iff.mp hg
    exact Nat.pos_of_ne_zero (by simpa using Scan.firstFin_eq_none.mp hf j)

theorem iget_spec {dev inum : Nat} (hg : t.iget dev inum = some (i, t')) :
    (t'.inode i).dev = dev ∧ (t'.inode i).inum = inum ∧ t'.locks = t.locks ∧ t'.disk = t.disk := by
  rcases iget_cases hg with ⟨-, hd, hn, rfl⟩ | ⟨-, -, rfl⟩
  · refine ⟨by simp [Itable.idup, hd], by simp [Itable.idup, hn], ?_, rfl⟩
    funext j
    by_cases hj : j = i
    · subst hj; simp [Itable.idup, locks]
    · simp [Itable.idup, locks, hj]
  · refine ⟨by simp, by simp, ?_, rfl⟩
    funext j
    by_cases hj : j = i
    · subst hj; simp [locks]
    · simp [locks, hj]

theorem writeEnt_inode {dp : Fin NINODE} {k : Nat} {de : Dirent} {b : Bool} (h : t.writeEnt dp k de b = some t') :
    t'.inode = t.inode := by
  unfold writeEnt at h
  dsimp only at h
  split_ifs at h <;> cases h <;> rfl

/-- What `dirlookup` can do: nothing, or an `iget` of the inode the entry names. -/
theorem dirlookup_cases {dp : Fin NINODE} {name : List Char} {r : Option (Nat × Fin NINODE)}
    (hd : t.dirlookup dp name = some (r, t')) :
    (t.inode dp).type = T_DIR ∧ match r with
      | none => t' = t
      | some (_, ip) => ∃ inum, t.iget (t.inode dp).dev inum = some (ip, t') := by
  unfold dirlookup at hd
  split_ifs at hd with ht
  refine ⟨not_not.mp ht, ?_⟩
  split at hd
  · obtain ⟨rfl, rfl⟩ := Prod.mk.inj (Option.some.inj hd)
    rfl
  · rename_i off inum _
    obtain ⟨⟨ip, t1⟩, hg, he⟩ := Option.map_eq_some_iff.mp hd
    obtain ⟨rfl, rfl⟩ := Prod.mk.inj he
    exact ⟨inum, hg⟩

/-- The reference to an entry that a call's result carries: none for `0`. -/
def refOf : Option (Fin NINODE) → List Nat
  | none => []
  | some i => [i.val]

@[simp] theorem refOf_none : refOf none = [] := rfl

@[simp] theorem refOf_some (i : Fin NINODE) : refOf (some i) = [i.val] := rfl

/-! ### The invariant -/

/-- Every reference to an entry is counted, outside the call (`ext`) or in it (`loc`), and two
entries with references are two inodes. -/
structure RefOk (t : Itable) (ext : Fin NINODE → Nat) (loc : List Nat) : Prop where
  ref_eq : ∀ i, (t.inode i).ref = ext i + loc.count i.val
  unique : ∀ i j, 0 < (t.inode i).ref → 0 < (t.inode j).ref →
    (t.inode i).dev = (t.inode j).dev → (t.inode i).inum = (t.inode j).inum → i = j

theorem RefOk.perm {loc' : List Nat} (h : RefOk t ext loc) (hp : loc.Perm loc') : RefOk t ext loc' :=
  ⟨fun i => by rw [h.ref_eq i, hp.count_eq], h.unique⟩

/-- References move between the holders outside the call and the call's own. -/
theorem RefOk.transfer {ext' : Fin NINODE → Nat} {loc' : List Nat} (h : RefOk t ext loc)
    (he : ∀ i, ext' i + loc'.count i.val = ext i + loc.count i.val) : RefOk t ext' loc' :=
  ⟨fun i => by rw [h.ref_eq i, he i], h.unique⟩

theorem RefOk.same (h : RefOk t ext loc) (hs : SameRefs t t') : RefOk t' ext loc := by
  refine ⟨fun j => by rw [(hs j).1, h.ref_eq j], fun a b ha hb hd hn => ?_⟩
  rw [(hs a).1] at ha
  rw [(hs b).1] at hb
  rw [(hs a).2.1, (hs b).2.1] at hd
  rw [(hs a).2.2, (hs b).2.2] at hn
  exact h.unique a b ha hb hd hn

theorem RefOk.ref_pos (h : RefOk t ext (i.val :: loc)) : 0 < (t.inode i).ref := by
  rw [h.ref_eq i, List.count_cons_self]
  omega

theorem RefOk.ref_pos_of_ext (h : RefOk t ext loc) (he : 0 < ext i) : 0 < (t.inode i).ref := by
  rw [h.ref_eq i]
  omega

/-- `ip->nlink = n; iupdate(ip)`, or any other write of an entry's copy of its on-disk inode. -/
theorem RefOk.copy (h : RefOk t ext loc) {x : Inode} (hr : x.ref = (t.inode i).ref)
    (hd : x.dev = (t.inode i).dev) (hn : x.inum = (t.inode i).inum) :
    RefOk ((t.setInode i x).iupdate i) ext loc :=
  h.same ((sameRefs_setInode t i x hr hd hn).trans (SameRefs.of_inode (iupdate_inode _ _)))

theorem locks_copy {x : Inode} (hl : x.locked = (t.inode i).locked) :
    ((t.setInode i x).iupdate i).locks = t.locks := by
  funext j
  by_cases hj : j = i
  · subst hj; simp [locks, hl]
  · simp [locks, hj]

theorem RefOk.iput (h : RefOk t ext (i.val :: loc)) (hp : t.iput i = some t') : RefOk t' ext loc := by
  refine ⟨fun j => ?_, fun a b ha hb hd hn => ?_⟩
  · rw [(iput_spec hp j).1]
    by_cases hj : j = i
    · subst hj
      rw [if_pos rfl, h.ref_eq, List.count_cons_self]
      omega
    · have hv : (i : Nat) ≠ j := fun e => hj (Fin.ext e).symm
      rw [if_neg hj, h.ref_eq, List.count_cons]
      simp [hv]
  · have hle : ∀ k, (t'.inode k).ref ≤ (t.inode k).ref := fun k => by
      rw [(iput_spec hp k).1]
      by_cases hk : k = i
      · subst hk
        rw [if_pos rfl]
        omega
      · rw [if_neg hk]
    rw [(iput_spec hp a).2.1, (iput_spec hp b).2.1] at hd
    rw [(iput_spec hp a).2.2.1, (iput_spec hp b).2.2.1] at hn
    exact h.unique a b (lt_of_lt_of_le ha (hle a)) (lt_of_lt_of_le hb (hle b)) hd hn

theorem RefOk.idup (h : RefOk t ext loc) (hp : 0 < (t.inode i).ref) : RefOk (t.idup i) ext (i.val :: loc) := by
  refine ⟨fun j => ?_, fun a b ha hb hd hn => ?_⟩
  · by_cases hj : j = i
    · subst hj
      simp [Itable.idup, h.ref_eq, List.count_cons_self]
      omega
    · have hv : (i : Nat) ≠ j := fun e => hj (Fin.ext e).symm
      simp [Itable.idup, hj, hv, h.ref_eq]
  · -- `idup` changes no key, and the entry had a reference already
    have hpos : ∀ k, 0 < ((t.idup i).inode k).ref → 0 < (t.inode k).ref := fun k hk => by
      by_cases hki : k = i
      · subst hki; exact hp
      · simpa [Itable.idup, hki] using hk
    have hkey : ∀ k, ((t.idup i).inode k).dev = (t.inode k).dev ∧ ((t.idup i).inode k).inum = (t.inode k).inum :=
      fun k => by
        by_cases hki : k = i
        · subst hki; simp [Itable.idup]
        · simp [Itable.idup, hki]
    rw [(hkey a).1, (hkey b).1] at hd
    rw [(hkey a).2, (hkey b).2] at hn
    exact h.unique a b (hpos a ha) (hpos b hb) hd hn

theorem RefOk.iget {dev inum : Nat} (h : RefOk t ext loc) (hg : t.iget dev inum = some (i, t')) :
    RefOk t' ext (i.val :: loc) := by
  rcases iget_cases hg with ⟨hp, -, -, rfl⟩ | ⟨h0, hfree, rfl⟩
  · exact h.idup hp
  -- a recycled entry had no reference from anywhere, and its new key is no other entry's
  have hz : ext i = 0 ∧ loc.count i.val = 0 := by
    have := h.ref_eq i
    omega
  refine ⟨fun j => ?_, fun a b ha hb hd hn => ?_⟩
  · by_cases hj : j = i
    · subst hj
      simp [hz.1, hz.2]
    · have hv : (i : Nat) ≠ j := fun e => hj (Fin.ext e).symm
      simp [hj, hv, h.ref_eq]
  · by_cases hai : a = i <;> by_cases hbi : b = i
    · exact hai.trans hbi.symm
    · subst hai
      simp only [Itable.setInode_inode, Function.update_self, Function.update_of_ne hbi] at hb hd hn
      exact absurd hn.symm (hfree b hb hd.symm)
    · subst hbi
      simp only [Itable.setInode_inode, Function.update_self, Function.update_of_ne hai] at ha hd hn
      exact absurd hn (hfree a ha hd)
    · simp only [Itable.setInode_inode, Function.update_of_ne hai, Function.update_of_ne hbi] at ha hb hd hn
      exact h.unique a b ha hb hd hn



theorem RefOk.iunlockput (h : RefOk t ext (i.val :: loc)) (hp : t.iunlockput i = some t') :
    RefOk t' ext loc ∧ t'.locks = Function.update t.locks i false ∧ t.locks i = true := by
  obtain ⟨t1, h1, h2⟩ := Option.bind_eq_some_iff.mp hp
  obtain ⟨hs, hl, hl0⟩ := iunlock_spec h1
  exact ⟨(h.same hs).iput h2, by rw [iput_locks h2, hl], hl0⟩

theorem RefOk.dirlookup {dp : Fin NINODE} {name : List Char} {r : Option (Nat × Fin NINODE)}
    (h : RefOk t ext loc) (hd : t.dirlookup dp name = some (r, t')) :
    RefOk t' ext (refOf (r.map Prod.snd) ++ loc) ∧ t'.locks = t.locks := by
  obtain ⟨-, hr⟩ := dirlookup_cases hd
  cases r with
  | none =>
    rw [hr]
    exact ⟨h, rfl⟩
  | some x =>
    obtain ⟨inum, hg⟩ := hr
    exact ⟨h.iget hg, (iget_spec hg).2.2.1⟩

theorem RefOk.dirlink {dp : Fin NINODE} {name : List Char} {inum : Nat} {b : Bool} {r : Int}
    (h : RefOk t ext loc) (hl : t.dirlink dp name inum b = some (r, t')) :
    RefOk t' ext loc ∧ t'.locks = t.locks := by
  unfold Itable.dirlink at hl
  simp only [bind, Option.bind_eq_some_iff] at hl
  obtain ⟨⟨r0, t1⟩, h1, h2⟩ := hl
  obtain ⟨hR1, hL1⟩ := h.dirlookup h1
  cases r0 with
  | none =>
    simp only [Option.bind_eq_some_iff, pure, Option.some.injEq, Prod.mk.injEq] at h2
    obtain ⟨t2, h3, -, rfl⟩ := h2
    have hi := writeEnt_inode h3
    refine ⟨hR1.same (SameRefs.of_inode hi), ?_⟩
    rw [← hL1]
    funext j
    simp [locks, hi]
  | some x =>
    simp only [Option.bind_eq_some_iff, pure, Option.some.injEq, Prod.mk.injEq] at h2
    obtain ⟨t2, h3, -, rfl⟩ := h2
    exact ⟨hR1.iput h3, by rw [iput_locks h3, hL1]⟩

/-- Taking a lock that was free and giving it back leaves the locks as they were. -/
theorem update_lock_unlock {L : Fin NINODE → Bool} (h : L i = false) :
    Function.update (Function.update L i true) i false = L := by
  rw [Function.update_idem, Function.update_eq_self_iff.mpr h.symm]

/-- The loop of `namex`, by induction along the path: each element locks the current
directory and unlocks it again on every exit, and passes the reference from it to the next. -/
theorem RefOk.namexLoop {np : Bool} {t t' : Itable} {ip : Fin NINODE} {path name : List Char}
    {r : Option (Fin NINODE × List Char)} (h : RefOk t ext (ip.val :: loc))
    (hn : t.namexLoop np ip path name = some (r, t')) :
    RefOk t' ext (refOf (r.map Prod.fst) ++ loc) ∧ t'.locks = t.locks := by
  induction t, ip, path, name using Itable.namexLoop.induct np generalizing r t' with
  | case1 t ip path name hs hp =>
    -- the path ends in `nameiparent`: the reference is given back
    rw [namexLoop_of_none hs, if_pos hp] at hn
    obtain ⟨t1, h1, he⟩ := Option.map_eq_some_iff.mp hn
    obtain ⟨rfl, rfl⟩ := Prod.mk.inj he
    exact ⟨h.iput h1, iput_locks h1⟩
  | case2 t ip path name hs hp =>
    rw [namexLoop_of_none hs, if_neg hp] at hn
    obtain ⟨rfl, rfl⟩ := Prod.mk.inj (Option.some.inj hn)
    exact ⟨h, rfl⟩
  | case3 t ip path name nm rest hs ih =>
    rw [Itable.namexLoop] at hn
    split at hn
    · simp_all
    rename_i nm' rest' hs'
    obtain ⟨rfl, rfl⟩ := Prod.mk.inj (Option.some.inj (hs.symm.trans hs'))
    simp only [bind, Option.bind_eq_some_iff] at hn
    obtain ⟨t1, h1, h2⟩ := hn
    obtain ⟨hs1, hl1, hl0⟩ := ilock_spec h1
    have hR1 := h.same hs1
    split_ifs at h2 with ht hpar
    · -- not a directory
      simp only [Option.bind_eq_some_iff, pure, Option.some.injEq, Prod.mk.injEq] at h2
      obtain ⟨t2, h3, rfl, rfl⟩ := h2
      obtain ⟨hR2, hl2, -⟩ := hR1.iunlockput h3
      exact ⟨hR2, by rw [hl2, hl1, update_lock_unlock hl0]⟩
    · -- `nameiparent` stops one level early, keeping the reference
      simp only [Option.bind_eq_some_iff, pure, Option.some.injEq, Prod.mk.injEq] at h2
      obtain ⟨t2, h3, rfl, rfl⟩ := h2
      obtain ⟨hs2, hl2, -⟩ := iunlock_spec h3
      exact ⟨hR1.same hs2, by rw [hl2, hl1, update_lock_unlock hl0]⟩
    · change Option.bind (t1.dirlookup ip nm) _ = _ at h2
      obtain ⟨⟨r2, t2⟩, h3, h4⟩ := Option.bind_eq_some_iff.mp h2
      obtain ⟨hR2, hl2⟩ := hR1.dirlookup h3
      cases r2 with
      | none =>
        simp only [Option.bind_eq_some_iff, pure, Option.some.injEq, Prod.mk.injEq] at h4
        obtain ⟨t3, h5, rfl, rfl⟩ := h4
        obtain ⟨hR3, hl3, -⟩ := hR2.iunlockput h5
        exact ⟨hR3, by rw [hl3, hl2, hl1, update_lock_unlock hl0]⟩
      | some x =>
        -- the reference passes from the directory to the element found in it
        simp only [Option.bind_eq_some_iff] at h4
        obtain ⟨t3, h5, h6⟩ := h4
        have hperm : (refOf (some x.2) ++ ip.val :: loc).Perm (ip.val :: x.2.val :: loc) := by
          simpa using List.Perm.swap ip.val x.2.val loc
        obtain ⟨hR3, hl3, -⟩ := (hR2.perm hperm).iunlockput h5
        obtain ⟨hR4, hl4⟩ := ih x.2 t3 hR3 h6
        exact ⟨hR4, by rw [hl4, hl3, hl2, hl1, update_lock_unlock hl0]⟩

theorem idup_locks (t : Itable) (i : Fin NINODE) : (t.idup i).locks = t.locks := by
  funext j
  by_cases hj : j = i
  · subst hj; simp [Itable.idup, locks]
  · simp [Itable.idup, locks, hj]

/-- `namex` from the root or from the process's `cwd`, which holds a reference to its entry. -/
theorem RefOk.namex {cwd : Option (Fin NINODE)} {path : List Char} {np : Bool}
    {r : Option (Fin NINODE × List Char)} (h : RefOk t ext loc)
    (hc : ∀ c, cwd = some c → 0 < ext c) (hn : t.namex cwd path np = some (r, t')) :
    RefOk t' ext (refOf (r.map Prod.fst) ++ loc) ∧ t'.locks = t.locks := by
  unfold Itable.namex at hn
  split_ifs at hn
  · obtain ⟨⟨ip, t1⟩, h1, h2⟩ := Option.bind_eq_some_iff.mp hn
    obtain ⟨hR, hl⟩ := (h.iget h1).namexLoop h2
    exact ⟨hR, by rw [hl, (iget_spec h1).2.2.1]⟩
  · cases hcwd : cwd with
    | none => rw [hcwd] at hn; cases hn
    | some c =>
      rw [hcwd] at hn
      obtain ⟨hR, hl⟩ := (h.idup (h.ref_pos_of_ext (hc c hcwd))).namexLoop hn
      exact ⟨hR, by rw [hl, idup_locks]⟩

theorem RefOk.namei {cwd : Option (Fin NINODE)} {path : List Char} {r : Option (Fin NINODE)}
    (h : RefOk t ext loc) (hc : ∀ c, cwd = some c → 0 < ext c)
    (hn : t.namei cwd path = some (r, t')) :
    RefOk t' ext (refOf r ++ loc) ∧ t'.locks = t.locks := by
  obtain ⟨⟨r0, t1⟩, h1, he⟩ := Option.map_eq_some_iff.mp hn
  obtain ⟨rfl, rfl⟩ := Prod.mk.inj he
  exact h.namex hc h1

theorem RefOk.ialloc {dev type : Nat} (h : RefOk t ext loc) (ha : t.ialloc dev type = some (i, t')) :
    RefOk t' ext (i.val :: loc) ∧ t'.locks = t.locks := by
  unfold Itable.ialloc at ha
  split at ha
  · cases ha
  · rename_i inum _
    have hR : RefOk (t.setDisk inum { DiskInode.zero with type := type }) ext loc :=
      h.same (SameRefs.of_inode rfl)
    exact ⟨hR.iget ha, (iget_spec ha).2.2.1⟩

theorem RefOk.iputAt {ip : Nat} (h : RefOk t ext (ip :: loc)) (hp : t.iputAt ip = some t') :
    RefOk t' ext loc ∧ t'.locks = t.locks := by
  unfold Itable.iputAt at hp
  split_ifs at hp with hlt
  exact ⟨RefOk.iput (i := ⟨ip, hlt⟩) h hp, iput_locks hp⟩

/-- The `iput`s of a list of references the call holds, in order. -/
theorem RefOk.iputAll : ∀ {d : List Nat} {t t' : Itable}, RefOk t ext (d ++ loc) →
    d.foldlM (fun t ip => t.iputAt ip) t = some t' → RefOk t' ext loc ∧ t'.locks = t.locks
  | [], _, _, h, hp => by
    cases hp
    exact ⟨h, rfl⟩
  | ip :: d, t, t', h, hp => by
    rw [List.foldlM_cons] at hp
    obtain ⟨t1, h1, h2⟩ := Option.bind_eq_some_iff.mp hp
    obtain ⟨hR1, hl1⟩ := RefOk.iputAt h h1
    obtain ⟨hR2, hl2⟩ := RefOk.iputAll hR1 h2
    exact ⟨hR2, hl2.trans hl1⟩

end Xv6Sched
