import Xv6Sched.Fs.ItableRefs
import Xv6Sched.File.Sysfile

/-!
# Xv6Sched.File.SysfileRefs — the calls of `sysfile.c` give back what they take in the inode table

For each call that works in the inode table alone (`create`, the lookup of `open`, `link`,
`unlink`, `mkdir`, `mknod`, the inode part of `exec`), on every path that does not panic: the
references it took are given back or returned to the caller (`RefOk`), and every lock it took is
given back, except the lock on the inode `create` and `openi` return (`lockOf`).  Each proof
follows its call step by step with the lemmas of `Xv6Sched.Fs.ItableRefs`; the locks are followed
through `Function.update`.  The processes' `cwd`s hold references outside the call (`hc`), which
`namex` needs to start from one.
-/

namespace Xv6Sched

open Itable

variable {t t' : Itable} {ext : Fin NINODE → Nat} {loc : List Nat} {cwd : Option (Fin NINODE)} {b : Bool}

/-- The locks after a call that returns its inode locked: that lock taken, the others as
before. -/
def lockOf (L : Fin NINODE → Bool) : Option (Fin NINODE) → Fin NINODE → Bool
  | none => L
  | some i => Function.update L i true

@[simp] theorem lockOf_none (L : Fin NINODE → Bool) : lockOf L none = L := rfl

@[simp] theorem lockOf_some (L : Fin NINODE → Bool) (i : Fin NINODE) :
    lockOf L (some i) = Function.update L i true := rfl

/-- An entry free after another's lock was taken was free before, and is another entry. -/
theorem free_of_update_true {L : Fin NINODE → Bool} {i j : Fin NINODE}
    (h : Function.update L i true j = false) : L j = false ∧ j ≠ i := by
  by_cases hj : j = i
  · subst hj
    simp at h
  · rw [Function.update_of_ne hj] at h
    exact ⟨h, hj⟩

theorem RefOk.createDots {dp ip : Fin NINODE} (h : RefOk t ext loc)
    (hd : t.createDots dp ip b = some t') : RefOk t' ext loc ∧ t'.locks = t.locks := by
  unfold Itable.createDots at hd
  simp only [bind, Option.bind_eq_some_iff] at hd
  obtain ⟨⟨r1, t1⟩, h1, h2⟩ := hd
  have h0 : RefOk ((t.setInode dp { t.inode dp with nlink := (t.inode dp).nlink + 1 }).iupdate dp)
      ext loc := h.copy rfl rfl rfl
  obtain ⟨hR1, hl1⟩ := h0.dirlink h1
  split_ifs at h2
  simp only [Option.bind_eq_some_iff] at h2
  obtain ⟨⟨r2, t2⟩, h3, h4⟩ := h2
  split_ifs at h4
  cases h4
  obtain ⟨hR2, hl2⟩ := hR1.dirlink h3
  exact ⟨hR2, by rw [hl2, hl1]; exact locks_copy rfl⟩

/-- `create` past its lookup: the new inode comes back locked and referenced, and the parent,
locked on entry, is unlocked and put. -/
theorem RefOk.createNew {dp ip : Fin NINODE} {name : List Char} {type : Nat} {major minor : Int16}
    (h : RefOk t ext (dp.val :: loc)) (hl : t.locks dp = true)
    (hn : t.createNew dp name type major minor b = some (ip, t')) :
    RefOk t' ext (ip.val :: loc) ∧
      t'.locks = Function.update (Function.update t.locks dp false) ip true ∧ t.locks ip = false := by
  unfold Itable.createNew at hn
  simp only [bind, Option.bind_eq_some_iff] at hn
  obtain ⟨⟨ip1, t1⟩, h1, t2, h2, t4, h4, ⟨r5, t5⟩, h5, h6⟩ := hn
  obtain ⟨hR1, hl1⟩ := h.ialloc h1
  obtain ⟨hs2, hl2, hl20⟩ := ilock_spec h2
  -- the new inode is not the parent, whose lock the call holds
  have hne : ip1 ≠ dp := by
    rintro rfl
    rw [hl1, hl] at hl20
    cases hl20
  set t3 := (t2.setInode ip1 { t2.inode ip1 with major := major, minor := minor, nlink := 1 }).iupdate ip1
  have hR3 : RefOk t3 ext (ip1.val :: dp.val :: loc) := (hR1.same hs2).copy rfl rfl rfl
  have hl3 : t3.locks = t2.locks := locks_copy rfl
  have h34 : RefOk t4 ext (ip1.val :: dp.val :: loc) ∧ t4.locks = t3.locks := by
    split_ifs at h4
    · exact hR3.createDots h4
    · rw [← Option.some.inj h4]
      exact ⟨hR3, rfl⟩
  obtain ⟨hR5, hl5⟩ := h34.1.dirlink h5
  split_ifs at h6
  simp only [Option.bind_eq_some_iff, pure, Option.some.injEq, Prod.mk.injEq] at h6
  obtain ⟨t6, h7, rfl, rfl⟩ := h6
  have hperm : (ip1.val :: dp.val :: loc).Perm (dp.val :: ip1.val :: loc) := List.Perm.swap _ _ _
  obtain ⟨hR6, hl6, -⟩ := (hR5.perm hperm).iunlockput h7
  refine ⟨hR6, ?_, by rw [← hl1]; exact hl20⟩
  rw [hl6, hl5, h34.2, hl3, hl2, hl1, Function.update_comm hne]

/-- The lookup of `create` found `ip` in the locked `dp`: `dp` is unlocked and put, and `ip`
locked, kept for a file asked for over a file or a device, else unlocked and put. -/
theorem RefOk.createFound {dp ip : Fin NINODE} {type : Nat} {r : Option (Fin NINODE)}
    {L : Fin NINODE → Bool} (h : RefOk t ext (ip.val :: dp.val :: loc))
    (hl : t.locks = Function.update L dp true) (hL : L dp = false)
    (hf : ((t.iunlockput dp).bind fun t => (t.ilock ip).bind fun t =>
      if type = T_FILE ∧ ((t.inode ip).type = T_FILE ∨ (t.inode ip).type = T_DEVICE) then
        pure (some ip, t)
      else (t.iunlockput ip).bind fun t => pure (none, t)) = some (r, t')) :
    RefOk t' ext (refOf r ++ loc) ∧ t'.locks = lockOf L r ∧ ∀ i, r = some i → L i = false := by
  simp only [Option.bind_eq_some_iff] at hf
  obtain ⟨t1, h1, t2, h2, h3⟩ := hf
  have hperm : (ip.val :: dp.val :: loc).Perm (dp.val :: ip.val :: loc) := List.Perm.swap _ _ _
  obtain ⟨hR1, hl1, -⟩ := (h.perm hperm).iunlockput h1
  rw [hl, update_lock_unlock hL] at hl1
  obtain ⟨hs2, hl2, hl20⟩ := ilock_spec h2
  rw [hl1] at hl2 hl20
  split_ifs at h3
  · simp only [pure, Option.some.injEq, Prod.mk.injEq] at h3
    obtain ⟨rfl, rfl⟩ := h3
    exact ⟨hR1.same hs2, hl2, fun i hi => by cases hi; exact hl20⟩
  · simp only [Option.bind_eq_some_iff, pure, Option.some.injEq, Prod.mk.injEq] at h3
    obtain ⟨t3, h4, rfl, rfl⟩ := h3
    obtain ⟨hR3, hl3, -⟩ := (hR1.same hs2).iunlockput h4
    exact ⟨hR3, by rw [hl3, hl2, update_lock_unlock hl20]; rfl, fun _ hi => by cases hi⟩

/-- `create` returns its inode locked and referenced, and gives back every other reference and
lock it took. -/
theorem RefOk.create {path : List Char} {type : Nat} {major minor : Int16} {r : Option (Fin NINODE)}
    (h : RefOk t ext loc) (hc : ∀ c, cwd = some c → 0 < ext c)
    (hcr : t.create cwd path type major minor b = some (r, t')) :
    RefOk t' ext (refOf r ++ loc) ∧ t'.locks = lockOf t.locks r ∧
      ∀ ip, r = some ip → t.locks ip = false := by
  unfold Itable.create at hcr
  simp only [bind, Option.bind_eq_some_iff] at hcr
  obtain ⟨⟨r1, t1⟩, h1, h2⟩ := hcr
  obtain ⟨hR1, hl1⟩ := h.namex hc h1
  rcases r1 with _ | ⟨dp, name⟩
  · -- no parent directory
    simp only [pure, Option.some.injEq, Prod.mk.injEq] at h2
    obtain ⟨rfl, rfl⟩ := h2
    exact ⟨hR1, hl1, fun _ hi => by cases hi⟩
  simp only [Option.bind_eq_some_iff] at h2
  obtain ⟨t2, h3, ⟨r3, t3⟩, h4, h5⟩ := h2
  obtain ⟨hs2, hl2, hl20⟩ := ilock_spec h3
  rw [hl1] at hl2 hl20
  obtain ⟨hR3, hl3⟩ := (hR1.same hs2).dirlookup h4
  rw [hl2] at hl3
  rcases r3 with _ | ⟨off, ip⟩
  · -- `name` is new in `dp`
    simp only [Option.bind_eq_some_iff, pure, Option.some.injEq, Prod.mk.injEq] at h5
    obtain ⟨⟨ip, t6⟩, h6, rfl, rfl⟩ := h5
    obtain ⟨hR6, hl6, hl60⟩ := hR3.createNew (by rw [hl3]; simp) h6
    rw [hl3, update_lock_unlock hl20] at hl6
    rw [hl3] at hl60
    exact ⟨hR6, hl6, fun i hi => by cases hi; exact (free_of_update_true hl60).1⟩
  · exact hR3.createFound hl3 hl20 h5

theorem RefOk.openi {path : List Char} {omode : Int32} {r : Option (Fin NINODE)}
    (h : RefOk t ext loc) (hc : ∀ c, cwd = some c → 0 < ext c)
    (ho : t.openi cwd path omode = some (r, t')) :
    RefOk t' ext (refOf r ++ loc) ∧ t'.locks = lockOf t.locks r ∧
      ∀ ip, r = some ip → t.locks ip = false := by
  unfold Itable.openi at ho
  simp only [bind, Option.bind_eq_some_iff] at ho
  obtain ⟨⟨r1, t1⟩, h1, h2⟩ := ho
  obtain ⟨hR1, hl1⟩ := h.namei hc h1
  rcases r1 with _ | ip
  · simp only [pure, Option.some.injEq, Prod.mk.injEq] at h2
    obtain ⟨rfl, rfl⟩ := h2
    exact ⟨hR1, hl1, fun _ hi => by cases hi⟩
  simp only [Option.bind_eq_some_iff] at h2
  obtain ⟨t2, h3, h4⟩ := h2
  obtain ⟨hs2, hl2, hl20⟩ := ilock_spec h3
  rw [hl1] at hl2 hl20
  split_ifs at h4
  · -- a directory opened for writing
    simp only [Option.bind_eq_some_iff, pure, Option.some.injEq, Prod.mk.injEq] at h4
    obtain ⟨t3, h5, rfl, rfl⟩ := h4
    obtain ⟨hR3, hl3, -⟩ := (hR1.same hs2).iunlockput h5
    exact ⟨hR3, by rw [hl3, hl2, update_lock_unlock hl20]; rfl, fun _ hi => by cases hi⟩
  · simp only [pure, Option.some.injEq, Prod.mk.injEq] at h4
    obtain ⟨rfl, rfl⟩ := h4
    exact ⟨hR1.same hs2, hl2, fun i hi => by cases hi; exact hl20⟩

theorem RefOk.linkBad {ip : Fin NINODE} (h : RefOk t ext (ip.val :: loc))
    (hb : t.linkBad ip = some t') : RefOk t' ext loc ∧ t'.locks = t.locks := by
  unfold Itable.linkBad at hb
  simp only [bind, Option.bind_eq_some_iff] at hb
  obtain ⟨t1, h1, h2⟩ := hb
  obtain ⟨hs1, hl1, hl10⟩ := ilock_spec h1
  have hR2 : RefOk ((t1.setInode ip { t1.inode ip with nlink := (t1.inode ip).nlink - 1 }).iupdate ip)
      ext (ip.val :: loc) := (h.same hs1).copy rfl rfl rfl
  obtain ⟨hR3, hl3, -⟩ := hR2.iunlockput h2
  refine ⟨hR3, ?_⟩
  rw [hl3]
  simp only [locks_copy]
  rw [hl1, update_lock_unlock hl10]

theorem RefOk.linkInto {new : List Char} {ip : Fin NINODE} {b' : Bool} (h : RefOk t ext loc)
    (hc : ∀ c, cwd = some c → 0 < ext c) (hl : t.linkInto cwd new ip b = some (b', t')) :
    RefOk t' ext loc ∧ t'.locks = t.locks := by
  unfold Itable.linkInto at hl
  simp only [bind, Option.bind_eq_some_iff] at hl
  obtain ⟨⟨r1, t1⟩, h1, h2⟩ := hl
  obtain ⟨hR1, hl1⟩ := h.namex hc h1
  rcases r1 with _ | ⟨dp, name⟩
  · simp only [pure, Option.some.injEq, Prod.mk.injEq] at h2
    obtain ⟨-, rfl⟩ := h2
    exact ⟨hR1, hl1⟩
  simp only [Option.bind_eq_some_iff] at h2
  obtain ⟨t2, h3, ⟨r4, t4⟩, h4, t5, h5, h6⟩ := h2
  simp only [pure, Option.some.injEq, Prod.mk.injEq] at h6
  obtain ⟨-, rfl⟩ := h6
  obtain ⟨hs2, hl2, hl20⟩ := ilock_spec h3
  have hR4 : RefOk t4 ext (dp.val :: loc) ∧ t4.locks = t2.locks := by
    split_ifs at h4
    · simp only [pure, Option.some.injEq, Prod.mk.injEq] at h4
      obtain ⟨-, rfl⟩ := h4
      exact ⟨hR1.same hs2, rfl⟩
    · exact (hR1.same hs2).dirlink h4
  obtain ⟨hR5, hl5, -⟩ := hR4.1.iunlockput h5
  refine ⟨hR5, ?_⟩
  rw [hl5, hR4.2, hl2, hl1, update_lock_unlock (hl1 ▸ hl20)]

/-- `sys_link` gives back every reference and lock it takes, on the `bad` path too. -/
theorem RefOk.sysLink {old new : List Char} {r : Int} (h : RefOk t ext loc)
    (hc : ∀ c, cwd = some c → 0 < ext c) (hs : t.sysLink cwd old new b = some (r, t')) :
    RefOk t' ext loc ∧ t'.locks = t.locks := by
  unfold Itable.sysLink at hs
  simp only [bind, Option.bind_eq_some_iff] at hs
  obtain ⟨⟨r1, t1⟩, h1, h2⟩ := hs
  obtain ⟨hR1, hl1⟩ := h.namei hc h1
  rcases r1 with _ | ip
  · simp only [pure, Option.some.injEq, Prod.mk.injEq] at h2
    obtain ⟨-, rfl⟩ := h2
    exact ⟨hR1, hl1⟩
  simp only [Option.bind_eq_some_iff] at h2
  obtain ⟨t2, h3, h4⟩ := h2
  obtain ⟨hs2, hl2, hl20⟩ := ilock_spec h3
  split_ifs at h4
  · -- a directory cannot be linked
    simp only [Option.bind_eq_some_iff, pure, Option.some.injEq, Prod.mk.injEq] at h4
    obtain ⟨t3, h5, -, rfl⟩ := h4
    obtain ⟨hR3, hl3, -⟩ := (hR1.same hs2).iunlockput h5
    exact ⟨hR3, by rw [hl3, hl2, update_lock_unlock hl20, hl1]⟩
  simp only [Option.bind_eq_some_iff] at h4
  obtain ⟨t4, h5, ⟨b, t6⟩, h6, h7⟩ := h4
  have hR3 : RefOk ((t2.setInode ip { t2.inode ip with nlink := (t2.inode ip).nlink + 1 }).iupdate ip)
      ext (ip.val :: loc) := (hR1.same hs2).copy rfl rfl rfl
  obtain ⟨hs4, hl4, -⟩ := iunlock_spec h5
  have hL4 : t4.locks = t.locks := by
    rw [hl4]
    simp only [locks_copy]
    rw [hl2, update_lock_unlock hl20, hl1]
  obtain ⟨hR6, hl6⟩ := (hR3.same hs4).linkInto hc h6
  cases b with
  | true =>
    simp only [Option.bind_eq_some_iff, pure, Option.some.injEq, Prod.mk.injEq] at h7
    obtain ⟨t7, h8, -, rfl⟩ := h7
    exact ⟨hR6.iput h8, by rw [iput_locks h8, hl6, hL4]⟩
  | false =>
    simp only [Option.bind_eq_some_iff, pure, Option.some.injEq, Prod.mk.injEq] at h7
    obtain ⟨t7, h8, -, rfl⟩ := h7
    obtain ⟨hR7, hl7⟩ := hR6.linkBad h8
    exact ⟨hR7, by rw [hl7, hl6, hL4]⟩

theorem RefOk.unlinkBad {dp : Fin NINODE} {r : Int} (h : RefOk t ext (dp.val :: loc))
    (hb : t.unlinkBad dp = some (r, t')) :
    RefOk t' ext loc ∧ t'.locks = Function.update t.locks dp false := by
  obtain ⟨t1, h1, he⟩ := Option.map_eq_some_iff.mp hb
  obtain ⟨-, rfl⟩ := Prod.mk.inj he
  obtain ⟨hR1, hl1, -⟩ := h.iunlockput h1
  exact ⟨hR1, hl1⟩

theorem RefOk.unlinkParent (h : RefOk t ext loc) (dp ip : Fin NINODE) :
    RefOk (t.unlinkParent dp ip) ext loc ∧ (t.unlinkParent dp ip).locks = t.locks := by
  unfold Itable.unlinkParent
  split_ifs
  · exact ⟨h.copy rfl rfl rfl, by simp only [locks_copy]⟩
  · exact ⟨h, rfl⟩

/-- Two locks taken, one after the other, and given back in the same order. -/
theorem update_two_locks {L : Fin NINODE → Bool} {i j : Fin NINODE} (hij : i ≠ j)
    (hi : L i = false) (hj : L j = false) :
    Function.update (Function.update (Function.update (Function.update L j true) i true) j false) i
      false = L := by
  rw [Function.update_comm hij, update_lock_unlock hj, update_lock_unlock hi]

/-- `sys_unlink` gives back every reference and lock it takes: the parent's and the inode's, on
every exit. -/
theorem RefOk.sysUnlink {path : List Char} {r : Int} (h : RefOk t ext loc)
    (hc : ∀ c, cwd = some c → 0 < ext c) (hs : t.sysUnlink cwd path = some (r, t')) :
    RefOk t' ext loc ∧ t'.locks = t.locks := by
  unfold Itable.sysUnlink at hs
  simp only [bind, Option.bind_eq_some_iff] at hs
  obtain ⟨⟨r1, t1⟩, h1, h2⟩ := hs
  obtain ⟨hR1, hl1⟩ := h.namex hc h1
  rcases r1 with _ | ⟨dp, name⟩
  · simp only [pure, Option.some.injEq, Prod.mk.injEq] at h2
    obtain ⟨-, rfl⟩ := h2
    exact ⟨hR1, hl1⟩
  simp only [Option.bind_eq_some_iff] at h2
  obtain ⟨t2, h3, h4⟩ := h2
  obtain ⟨hs2, hl2, hl20⟩ := ilock_spec h3
  rw [hl1] at hl2 hl20
  have hR2 : RefOk t2 ext (dp.val :: loc) := hR1.same hs2
  split_ifs at h4
  · -- `.` and `..` cannot be unlinked
    obtain ⟨hR3, hl3⟩ := hR2.unlinkBad h4
    exact ⟨hR3, by rw [hl3, hl2, update_lock_unlock hl20]⟩
  simp only [Option.bind_eq_some_iff] at h4
  obtain ⟨⟨r3, t3⟩, h5, h6⟩ := h4
  obtain ⟨hR3, hl3⟩ := hR2.dirlookup h5
  rcases r3 with _ | ⟨off, ip⟩
  · obtain ⟨hR4, hl4⟩ := hR3.unlinkBad h6
    exact ⟨hR4, by rw [hl4, hl3, hl2, update_lock_unlock hl20]⟩
  simp only [Option.bind_eq_some_iff] at h6
  obtain ⟨t4, h7, h8⟩ := h6
  obtain ⟨hs4, hl4, hl40⟩ := ilock_spec h7
  rw [hl3, hl2] at hl4 hl40
  obtain ⟨hip, hne⟩ := free_of_update_true hl40
  have hR4 : RefOk t4 ext (ip.val :: dp.val :: loc) := hR3.same hs4
  have hperm : (ip.val :: dp.val :: loc).Perm (dp.val :: ip.val :: loc) := List.Perm.swap _ _ _
  split_ifs at h8
  · -- a directory that is not empty
    simp only [Option.bind_eq_some_iff] at h8
    obtain ⟨t5, h9, h10⟩ := h8
    obtain ⟨hR5, hl5, -⟩ := hR4.iunlockput h9
    obtain ⟨hR6, hl6⟩ := hR5.unlinkBad h10
    exact ⟨hR6, by rw [hl6, hl5, hl4, update_lock_unlock hl40, update_lock_unlock hl20]⟩
  · simp only [Option.bind_eq_some_iff, pure, Option.some.injEq, Prod.mk.injEq] at h8
    obtain ⟨t5, h9, t6, h10, t7, h11, -, rfl⟩ := h8
    have hi5 := writeEnt_inode h9
    have hR5 : RefOk t5 ext (ip.val :: dp.val :: loc) := hR4.same (SameRefs.of_inode hi5)
    have hl5 : t5.locks = t4.locks := by
      funext j
      simp only [locks, hi5]
    obtain ⟨hRp, hlp⟩ := hR5.unlinkParent dp ip
    obtain ⟨hR6, hl6, -⟩ := (hRp.perm hperm).iunlockput h10
    have hR6' : RefOk ((t6.setInode ip { t6.inode ip with nlink := (t6.inode ip).nlink - 1 }).iupdate ip)
        ext (ip.val :: loc) := hR6.copy rfl rfl rfl
    obtain ⟨hR7, hl7, -⟩ := hR6'.iunlockput h11
    refine ⟨hR7, ?_⟩
    rw [hl7]
    simp only [locks_copy]
    rw [hl6, hlp, hl5, hl4, update_two_locks hne hip hl20]

/-- `mkdir` and `mknod` after `create`: the new inode unlocked and put. -/
theorem RefOk.createPut {path : List Char} {type : Nat} {major minor : Int16} {r : Int}
    (h : RefOk t ext loc) (hc : ∀ c, cwd = some c → 0 < ext c)
    (hs : t.createPut cwd path type major minor b = some (r, t')) :
    RefOk t' ext loc ∧ t'.locks = t.locks := by
  unfold Itable.createPut at hs
  simp only [bind, Option.bind_eq_some_iff] at hs
  obtain ⟨⟨r1, t1⟩, h1, h2⟩ := hs
  obtain ⟨hR1, hl1, hl10⟩ := h.create hc h1
  rcases r1 with _ | ip
  · simp only [pure, Option.some.injEq, Prod.mk.injEq] at h2
    obtain ⟨-, rfl⟩ := h2
    exact ⟨hR1, hl1⟩
  · simp only [Option.bind_eq_some_iff, pure, Option.some.injEq, Prod.mk.injEq] at h2
    obtain ⟨t2, h3, -, rfl⟩ := h2
    obtain ⟨hR2, hl2, -⟩ := hR1.iunlockput h3
    exact ⟨hR2, by rw [hl2, hl1, lockOf_some, update_lock_unlock (hl10 ip rfl)]⟩

theorem RefOk.sysMkdir {path : List Char} {r : Int} (h : RefOk t ext loc)
    (hc : ∀ c, cwd = some c → 0 < ext c) (hs : t.sysMkdir cwd path b = some (r, t')) :
    RefOk t' ext loc ∧ t'.locks = t.locks :=
  h.createPut hc hs

theorem RefOk.sysMknod {path : List Char} {major minor : Int32} {r : Int} (h : RefOk t ext loc)
    (hc : ∀ c, cwd = some c → 0 < ext c) (hs : t.sysMknod cwd path major minor b = some (r, t')) :
    RefOk t' ext loc ∧ t'.locks = t.locks :=
  h.createPut hc hs

theorem RefOk.exec {path : List Char} (h : RefOk t ext loc) (hc : ∀ c, cwd = some c → 0 < ext c)
    (hs : t.exec cwd path = some t') : RefOk t' ext loc ∧ t'.locks = t.locks := by
  unfold Itable.exec at hs
  simp only [bind, Option.bind_eq_some_iff] at hs
  obtain ⟨⟨r1, t1⟩, h1, h2⟩ := hs
  obtain ⟨hR1, hl1⟩ := h.namei hc h1
  rcases r1 with _ | ip
  · cases h2
    exact ⟨hR1, hl1⟩
  · simp only [Option.bind_eq_some_iff] at h2
    obtain ⟨t2, h3, h4⟩ := h2
    obtain ⟨hs2, hl2, hl20⟩ := ilock_spec h3
    obtain ⟨hR3, hl3, -⟩ := (hR1.same hs2).iunlockput h4
    exact ⟨hR3, by rw [hl3, hl2, update_lock_unlock hl20, hl1]⟩

end Xv6Sched
