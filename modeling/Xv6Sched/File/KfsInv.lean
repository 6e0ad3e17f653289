import Xv6Sched.File.FtableInv
import Xv6Sched.File.SysfileRefs

/-!
# Xv6Sched.File.KfsInv — every inode reference is an open file's or a `cwd`'s, and no lock is held

Between system calls, each entry of the inode table has as many references as the open files
and the processes' `cwd`s hold to it, two entries with references are two inodes, and no
sleep-lock is held (`KfsOk`).  Every call keeps that (`KfsOk.step`), so it holds in every state
reached from boot (`itable_refs_exact`).

The file table's calls are taken from `Xv6Sched.File.FtableInv`: they keep its invariant, and
besides `open`, they put no inode reference into a file and only give references back, which
they record at the end of `iputs` (`Ftable.Releases`).  `FtOk` counts each reference `open` put
into a file as held by an open file or recorded in `iputs`, so the references the file table
gave back are exactly the new entries of `iputs` (`held_releases`), which `withFiles` puts.
-/

namespace Xv6Sched

namespace Ftable

/-- `s'` is `s` after file-table calls that put no inode reference into a file: the same
processes, the same `opened`, and `iputs` grown at its end. -/
def Releases (s s' : Ftable) : Prop :=
  s'.life = s.life ∧ s'.opened = s.opened ∧ s.iputs <+: s'.iputs

theorem Releases.refl (s : Ftable) : Releases s s := ⟨rfl, rfl, List.prefix_refl _⟩

theorem Releases.trans {s₁ s₂ s₃ : Ftable} (h₁ : Releases s₁ s₂) (h₂ : Releases s₂ s₃) :
    Releases s₁ s₃ :=
  ⟨h₂.1.trans h₁.1, h₂.2.1.trans h₁.2.1, h₁.2.2.trans h₂.2.2⟩

variable {s s' : Ftable} {p : Fin NPROC} {f : Fin NFILE}

theorem releases_setFile (s : Ftable) (f : Fin NFILE) (x : File) : Releases s (s.setFile f x) :=
  Releases.refl s

theorem releases_setOfile (s : Ftable) (p : Fin NPROC) (fd : Fin NOFILE) (v : Option (Fin NFILE)) :
    Releases s (s.setOfile p fd v) :=
  Releases.refl s

theorem releases_pipeclose {pi : Nat} {w : Bool} (h : s.pipeclose pi w = some s') : Releases s s' := by
  obtain ⟨-, -, hl, -, ho, hi⟩ := pipeclose_frame h
  exact ⟨hl, ho, hi ▸ List.prefix_refl _⟩

theorem releases_fileclose (h : s.fileclose f = some s') : Releases s s' := by
  unfold fileclose at h
  dsimp only at h
  split_ifs at h
  · cases h
    exact releases_setFile _ _ _
  · cases ht : (s.file f).type <;> rw [ht] at h
    · cases h
      exact releases_setFile _ _ _
    · exact (releases_setFile _ _ _).trans (releases_pipeclose h)
    · cases h
      exact ⟨rfl, rfl, List.prefix_append _ _⟩
    · cases h
      exact ⟨rfl, rfl, List.prefix_append _ _⟩

theorem releases_filealloc (h : s.filealloc = some (f, s')) : Releases s s' := by
  rw [(filealloc_eq_some h).2]
  exact releases_setFile _ _ _

theorem releases_fdalloc {fd : Fin NOFILE} (h : s.fdalloc p f = some (fd, s')) : Releases s s' := by
  rw [(fdalloc_eq_some h).2]
  exact releases_setOfile _ _ _ _

theorem releases_filedup (h : s.filedup f = some s') : Releases s s' := by
  unfold filedup at h
  split_ifs at h
  cases h
  exact releases_setFile _ _ _

theorem releases_closeIf {g : Option (Fin NFILE)} (h : s.closeIf g = some s') : Releases s s' := by
  cases g with
  | none =>
    cases h
    exact Releases.refl s
  | some g => exact releases_fileclose h

theorem releases_pipeallocBad {f0 f1 : Option (Fin NFILE)} {r : Option (Fin NFILE × Fin NFILE)}
    (h : s.pipeallocBad f0 f1 = some (r, s')) : Releases s s' := by
  unfold pipeallocBad at h
  simp only [bind, Option.bind_eq_some_iff, pure, Option.some.injEq, Prod.mk.injEq] at h
  obtain ⟨s1, h1, s2, h2, -, rfl⟩ := h
  exact (releases_closeIf h1).trans (releases_closeIf h2)

theorem releases_pipealloc {k : Bool} {r : Option (Fin NFILE × Fin NFILE)}
    (h : s.pipealloc k = some (r, s')) : Releases s s' := by
  unfold pipealloc at h
  cases ha : s.filealloc with
  | none =>
    rw [ha] at h
    exact releases_pipeallocBad h
  | some a =>
    obtain ⟨f0, s1⟩ := a
    rw [ha] at h
    dsimp only at h
    have h1 := releases_filealloc ha
    cases hb : s1.filealloc with
    | none =>
      rw [hb] at h
      exact h1.trans (releases_pipeallocBad h)
    | some b =>
      obtain ⟨f1, s2⟩ := b
      rw [hb] at h
      have h2 := h1.trans (releases_filealloc hb)
      dsimp only at h
      split_ifs at h
      · exact h2.trans (releases_pipeallocBad h)
      · cases h
        exact h2

theorem releases_pipeFail {rf wf : Fin NFILE} {r : Int} (h : s.pipeFail rf wf = some (r, s')) :
    Releases s s' := by
  unfold pipeFail at h
  simp only [bind, Option.bind_eq_some_iff, pure, Option.some.injEq, Prod.mk.injEq] at h
  obtain ⟨s1, h1, s2, h2, -, rfl⟩ := h
  exact (releases_fileclose h1).trans (releases_fileclose h2)

theorem releases_sysDup {n r : Int} (h : s.sysDup p n = some (r, s')) : Releases s s' := by
  unfold sysDup at h
  cases ha : s.argfd p n with
  | none =>
    rw [ha] at h
    cases h
    exact Releases.refl s
  | some a =>
    obtain ⟨d, f⟩ := a
    rw [ha] at h
    dsimp only at h
    cases hd : s.fdalloc p f with
    | none =>
      rw [hd] at h
      cases h
      exact Releases.refl s
    | some b =>
      obtain ⟨fd, s1⟩ := b
      rw [hd] at h
      obtain ⟨s2, h2, he⟩ := Option.map_eq_some_iff.mp h
      cases he
      exact (releases_fdalloc hd).trans (releases_filedup h2)

theorem releases_sysClose {n r : Int} (h : s.sysClose p n = some (r, s')) : Releases s s' := by
  unfold sysClose at h
  cases ha : s.argfd p n with
  | none =>
    rw [ha] at h
    cases h
    exact Releases.refl s
  | some a =>
    obtain ⟨fd, f⟩ := a
    rw [ha] at h
    obtain ⟨s1, h1, he⟩ := Option.map_eq_some_iff.mp h
    cases he
    exact (releases_setOfile s p fd none).trans (releases_fileclose h1)

theorem releases_sysPipe {k c : Bool} {r : Int} (h : s.sysPipe p k c = some (r, s')) :
    Releases s s' := by
  unfold sysPipe at h
  cases ha : s.pipealloc k with
  | none =>
    rw [ha] at h
    cases h
  | some a =>
    obtain ⟨e, s1⟩ := a
    have h1 := releases_pipealloc ha
    rw [ha] at h
    rcases e with _ | ⟨rf, wf⟩
    · cases h
      exact h1
    dsimp only at h
    cases hd0 : s1.fdalloc p rf with
    | none =>
      rw [hd0] at h
      exact h1.trans (releases_pipeFail h)
    | some b =>
      obtain ⟨fd0, s2⟩ := b
      have h2 := h1.trans (releases_fdalloc hd0)
      rw [hd0] at h
      dsimp only at h
      cases hd1 : s2.fdalloc p wf with
      | none =>
        rw [hd1] at h
        dsimp only at h
        exact h2.trans ((releases_setOfile _ _ _ _).trans (releases_pipeFail h))
      | some b' =>
        obtain ⟨fd1, s3⟩ := b'
        have h3 := h2.trans (releases_fdalloc hd1)
        rw [hd1] at h
        dsimp only at h
        split_ifs at h
        · cases h
          exact h3
        · exact h3.trans ((releases_setOfile _ _ _ _).trans
            ((releases_setOfile _ _ _ _).trans (releases_pipeFail h)))

theorem releases_forkFd {np : Fin NPROC} {i : Fin NOFILE} (h : s.forkFd p np i = some s') :
    Releases s s' := by
  unfold forkFd at h
  cases hs : s.ofile p i with
  | none =>
    rw [hs] at h
    cases h
    exact Releases.refl s
  | some f =>
    rw [hs] at h
    obtain ⟨s1, h1, rfl⟩ := Option.map_eq_some_iff.mp h
    exact (releases_filedup h1).trans (releases_setOfile _ _ _ _)

theorem releases_exitFd {fd : Fin NOFILE} (h : s.exitFd p fd = some s') : Releases s s' := by
  unfold exitFd at h
  cases hs : s.ofile p fd with
  | none =>
    rw [hs] at h
    cases h
    exact Releases.refl s
  | some f =>
    rw [hs] at h
    obtain ⟨s1, h1, rfl⟩ := Option.map_eq_some_iff.mp h
    exact (releases_fileclose h1).trans (releases_setOfile _ _ _ _)

/-- `fork`'s loop only duplicates descriptors. -/
theorem releases_forkLoop {np : Fin NPROC} {l : List (Fin NOFILE)}
    (h : l.foldlM (forkFd p np) s = some s') : Releases s s' :=
  Scan.foldlM_rel Releases Releases.refl Releases.trans (fun _ _ _ => releases_forkFd) h

/-- `exit` closes its descriptors and leaves `p` a zombie. -/
theorem releases_exit (h : s.exit p = some s') :
    Releases { s with life := Function.update s.life p .zombie } s' := by
  unfold exit at h
  split_ifs at h
  obtain ⟨s1, h1, rfl⟩ := Option.map_eq_some_iff.mp h
  have hr : Releases s s1 :=
    Scan.foldlM_rel Releases Releases.refl Releases.trans (fun _ _ _ => releases_exitFd) h1
  exact ⟨by rw [hr.1], hr.2.1, hr.2.2⟩

/-- `fork` when `allocproc` finds no slot or the copy fails: the table is as it was. -/
theorem fork_of_not_alloc {c : Bool} (h : s.fork p c = some s')
    (hn : ∀ np, Scan.firstFin (fun q => s.life q == .unused) = some np → c = false) : s' = s := by
  unfold fork at h
  split at h
  · exact (Option.some.inj h).symm
  · rename_i np hnp
    rw [if_neg (by simp [hn np hnp])] at h
    exact (Option.some.inj h).symm

/-- `fork` into the slot `np`: the child is live, and the loop only duplicates descriptors. -/
theorem fork_of_alloc {np : Fin NPROC} (h : s.fork p true = some s')
    (hn : Scan.firstFin (fun q => s.life q == .unused) = some np) :
    Releases { s with life := Function.update s.life np .live } s' := by
  unfold fork at h
  rw [hn] at h
  exact releases_forkLoop h

/-- `sys_open` with an inode: on success the new entry holds the reference to `ip`, recorded in
`opened`; on failure the table only gave references back. -/
theorem sysOpen_opens {ip : Nat} {dev : Bool} {omode : Int32} {r : Int}
    (h : s.sysOpen p (some (ip, dev)) omode = some (r, s')) :
    (0 ≤ r ∧ s'.life = s.life ∧ s'.opened = s.opened ++ [ip] ∧ s.iputs <+: s'.iputs) ∨
      (r < 0 ∧ Releases s s') := by
  unfold sysOpen at h
  dsimp only at h
  cases ha : s.filealloc with
  | none =>
    rw [ha] at h
    cases h
    exact .inr ⟨by decide, Releases.refl s⟩
  | some a =>
    obtain ⟨f, s1⟩ := a
    rw [ha] at h
    have h1 := releases_filealloc ha
    dsimp only at h
    cases hd : s1.fdalloc p f with
    | none =>
      rw [hd] at h
      obtain ⟨s2, h2, he⟩ := Option.map_eq_some_iff.mp h
      cases he
      exact .inr ⟨by decide, h1.trans (releases_fileclose h2)⟩
    | some b =>
      obtain ⟨fd, s2⟩ := b
      rw [hd] at h
      cases h
      have h2 := h1.trans (releases_fdalloc hd)
      exact .inl ⟨by omega, h2.1, by rw [← h2.2.1], h2.2.2⟩

/-- The references to inode `ip` that the file table gave back from `s` to `s'`, the new entries
of `iputs`, with those it holds in `s'`, are those it held in `s` and those it took, `o`. -/
theorem held_iputs (h : FtOk s) (h' : FtOk s') {o : List Nat} (ho : s'.opened = s.opened ++ o)
    (hi : s.iputs <+: s'.iputs) (ip : Nat) :
    held s'.file ip + (s'.iputs.drop s.iputs.length).count ip = held s.file ip + o.count ip := by
  obtain ⟨d, hd⟩ := hi
  have e := h.inodes ip
  have e' := h'.inodes ip
  rw [ho, List.count_append, ← hd, List.count_append] at e'
  rw [← hd, List.drop_left]
  omega

end Ftable

/-! ### The references between calls -/

open Itable

/-- The processes whose `cwd` is entry `i`. -/
def cwds (cwd : Fin NPROC → Option (Fin NINODE)) (i : Fin NINODE) : Nat :=
  (Finset.univ.filter fun p => cwd p = some i).card

theorem count_refOf (v : Option (Fin NINODE)) (i : Fin NINODE) :
    (refOf v).count i.val = if v = some i then 1 else 0 := by
  cases v with
  | none => simp
  | some c =>
    by_cases hc : c = i
    · subst hc
      simp
    · have hv : c.val ≠ i.val := fun e => hc (Fin.ext e)
      simp [hc, hv]

/-- `p->cwd = v`: the old directory of `p` loses a `cwd`, `v` gains one. -/
theorem cwds_update (cwd : Fin NPROC → Option (Fin NINODE)) (p : Fin NPROC) (v : Option (Fin NINODE))
    (i : Fin NINODE) :
    cwds (Function.update cwd p v) i + (refOf (cwd p)).count i.val = cwds cwd i + (refOf v).count i.val := by
  rw [count_refOf, count_refOf]
  exact Scan.card_update_add cwd (· = some i) p v

theorem cwds_pos {cwd : Fin NPROC → Option (Fin NINODE)} {p : Fin NPROC} {c : Fin NINODE}
    (h : cwd p = some c) : 0 < cwds cwd c :=
  Finset.card_pos.mpr ⟨p, by simp [h]⟩

namespace Kfs

/-- The references to entry `i` held between calls: one for each open file of it, and one for
each process whose `cwd` it is. -/
def holders (s : Kfs) (i : Fin NINODE) : Nat := held s.ft.file i.val + cwds s.cwd i

/-- The `cwd` of the process making a call is a reference held outside the call. -/
theorem cwd_held (s : Kfs) (p : Fin NPROC) : ∀ c, s.cwd p = some c → 0 < s.holders c := by
  intro c hc
  have := cwds_pos hc
  unfold holders
  omega

end Kfs

/-- The invariant between calls: the file table's (`FtOk`); every reference to an entry of the
inode table is an open file's or a `cwd`'s, and two entries with references are two inodes
(`RefOk`, with nothing held by a call); no sleep-lock is held; and just the live processes have
a `cwd`. -/
structure KfsOk (s : Kfs) : Prop where
  files : FtOk s.ft
  refs : RefOk s.it s.holders []
  unlocked : ∀ i, s.it.locks i = false
  cwd_live : ∀ p, s.ft.life p = .live ↔ s.cwd p ≠ none

section Steps

variable {s s' : Kfs} {p : Fin NPROC}

/-- `p->cwd = v` moves a reference between the `cwd`s and the call: the call gives `v` to `p`
and takes the old `cwd` of `p`. -/
theorem RefOk.setCwd {t : Itable} {v : Option (Fin NINODE)} {loc : List Nat}
    (h : RefOk t s.holders (refOf v ++ loc)) (p : Fin NPROC) :
    RefOk t { s with cwd := Function.update s.cwd p v }.holders (refOf (s.cwd p) ++ loc) := by
  refine h.transfer fun i => ?_
  have := cwds_update s.cwd p v i
  simp only [Kfs.holders, List.count_append]
  omega

theorem live_iff_update {life : Fin NPROC → Life} {cwd : Fin NPROC → Option (Fin NINODE)}
    (h : ∀ q, life q = .live ↔ cwd q ≠ none) (p : Fin NPROC) (l : Life) (v : Option (Fin NINODE))
    (hv : l = .live ↔ v ≠ none) (q : Fin NPROC) :
    Function.update life p l q = .live ↔ Function.update cwd p v q ≠ none := by
  by_cases hq : q = p
  · subst hq
    simpa using hv
  · simpa [Function.update_of_ne hq] using h q

/-- A call that ends with the file table's invariant, the processes and their `cwd`s as they
were, every reference to an inode counted and every lock given back. -/
theorem KfsOk.of_call (h : KfsOk s) (hf : FtOk s'.ft) (hl : s'.ft.life = s.ft.life) (hc : s'.cwd = s.cwd)
    (hR : RefOk s'.it s'.holders []) (hL : s'.it.locks = s.it.locks) : KfsOk s' :=
  ⟨hf, hR, fun i => (congrFun hL i).trans (h.unlocked i), fun q => by rw [hl, hc]; exact h.cwd_live q⟩

/-- A call in the inode table alone that gives back every reference and every lock it took. -/
theorem KfsOk.setIt (h : KfsOk s) {it : Itable} (hR : RefOk it s.holders []) (hl : it.locks = s.it.locks) :
    KfsOk { s with it := it } :=
  h.of_call h.files rfl rfl hR hl

theorem KfsOk.onIt (h : KfsOk s) {c : Option (Int × Itable)}
    (hc : ∀ r it, c = some (r, it) → RefOk it s.holders [] ∧ it.locks = s.it.locks)
    (hs : s.onIt c = some s') : KfsOk s' := by
  obtain ⟨⟨r, it⟩, hc', rfl⟩ := Option.map_eq_some_iff.mp hs
  obtain ⟨hR, hl⟩ := hc r it hc'
  exact h.setIt hR hl

/-- `withFiles` puts the references the file table gave back.  `he`: the references held outside
the call and by it before (`ext`, `loc`) are those the file table holds after, those it gave
back, and those the call holds after (`loc'`). -/
theorem RefOk.withFiles {ft : Ftable} {ext : Fin NINODE → Nat} {loc loc' : List Nat}
    (hw : s.withFiles ft = some s') (h : RefOk s.it ext loc)
    (he : ∀ i, held ft.file i.val + cwds s.cwd i + (ft.iputs.drop s.ft.iputs.length ++ loc').count i.val =
      ext i + loc.count i.val) :
    RefOk s'.it s'.holders loc' ∧ s'.it.locks = s.it.locks ∧ s'.ft = ft ∧ s'.cwd = s.cwd := by
  unfold Kfs.withFiles at hw
  obtain ⟨it, hf, rfl⟩ := Option.map_eq_some_iff.mp hw
  obtain ⟨hR, hl⟩ := RefOk.iputAll (h.transfer he) hf
  exact ⟨hR, hl, rfl, rfl⟩

/-- The accounting `withFiles` needs after a file-table call that took the references `o` from
the call and gave some back (`held_iputs`). -/
theorem Kfs.held_withFiles (hf : FtOk s.ft) {ft : Ftable} (hf' : FtOk ft) {o : List Nat}
    (ho : ft.opened = s.ft.opened ++ o) (hi : s.ft.iputs <+: ft.iputs) (loc : List Nat) (i : Fin NINODE) :
    held ft.file i.val + cwds s.cwd i + (ft.iputs.drop s.ft.iputs.length ++ loc).count i.val =
      s.holders i + (o ++ loc).count i.val := by
  have := Ftable.held_iputs hf hf' ho hi i.val
  rw [List.count_append, List.count_append]
  unfold Kfs.holders
  omega

/-- A file-table call that only gives references back. -/
theorem KfsOk.withFiles (h : KfsOk s) {ft : Ftable} (hf : FtOk ft) (hr : Ftable.Releases s.ft ft)
    (hw : s.withFiles ft = some s') : KfsOk s' := by
  obtain ⟨hR, hl, hft, hc⟩ :=
    h.refs.withFiles hw (Kfs.held_withFiles h.files hf (by rw [hr.2.1, List.append_nil]) hr.2.2 [])
  exact h.of_call (hft ▸ hf) (by rw [hft, hr.1]) hc hR hl

theorem KfsOk.onFt (h : KfsOk s) {c : Option (Int × Ftable)}
    (hc : ∀ r ft, c = some (r, ft) → FtOk ft ∧ Ftable.Releases s.ft ft) (hs : s.onFt c = some s') :
    KfsOk s' := by
  obtain ⟨⟨r, ft⟩, hc', hw⟩ := Option.bind_eq_some_iff.mp hs
  obtain ⟨hf, hr⟩ := hc r ft hc'
  exact h.withFiles hf hr hw

/-- A child process without a `cwd` is one whose slot was unused. -/
theorem KfsOk.cwd_unused (h : KfsOk s) {np : Fin NPROC}
    (hn : Scan.firstFin (fun q => s.ft.life q == .unused) = some np) : s.cwd np = none := by
  have hu : s.ft.life np = .unused := by simpa using Scan.firstFin_spec hn
  by_contra hne
  have hl := (h.cwd_live np).mpr hne
  rw [hu] at hl
  cases hl

/-- `fork`: the file table duplicates the parent's descriptors, and the child's `cwd` is one more
reference to the parent's. -/
theorem KfsOk.fork (h : KfsOk s) {c : Bool} (hs : s.fork p c = some s') : KfsOk s' := by
  unfold Kfs.fork at hs
  simp only [bind, Option.bind_eq_some_iff] at hs
  obtain ⟨ft, hft, s1, hw, hs⟩ := hs
  have hf : FtOk ft := by
    obtain ⟨ft', hft', hok⟩ := h.files.fork p c
    rw [hft] at hft'
    exact Option.some.inj hft' ▸ hok
  split at hs
  · rename_i np hn
    have hr := Ftable.fork_of_alloc hft hn
    obtain ⟨hR, hl, hft1, hc1⟩ :=
      h.refs.withFiles hw (Kfs.held_withFiles h.files hf (by rw [hr.2.1, List.append_nil]) hr.2.2 [])
    cases hcp : s.cwd p with
    | none =>
      rw [hcp] at hs
      cases hs
    | some c =>
      rw [hcp] at hs
      cases hs
      -- the child's `cwd` is a new reference, to the parent's
      have hnp : s1.cwd np = none := by rw [hc1]; exact h.cwd_unused hn
      have hpos : 0 < s1.holders c := Kfs.cwd_held s1 p c (by rw [hc1]; exact hcp)
      have h2 : RefOk (s1.it.idup c) s1.holders (refOf (some c) ++ []) := hR.idup (hR.ref_pos_of_ext hpos)
      have h3 := h2.setCwd np
      rw [hnp, refOf_none, List.nil_append] at h3
      refine ⟨hft1 ▸ hf, h3, fun i => (congrFun ((idup_locks _ _).trans hl) i).trans (h.unlocked i),
        fun q => ?_⟩
      show s1.ft.life q = .live ↔ Function.update s1.cwd np (some c) q ≠ none
      rw [hft1, hr.1, hc1]
      exact live_iff_update h.cwd_live np .live (some c) (by simp) q
  · -- no slot, or no copy: the tables are as they were
    rename_i c _ _ hn
    obtain rfl : ft = s.ft := Ftable.fork_of_not_alloc hft fun np hnp => Bool.eq_false_iff.mpr (hn np hnp)
    cases hs
    exact h.withFiles hf (Ftable.Releases.refl _) hw

/-- `exit`: the file table closes every descriptor, and the `cwd` is put. -/
theorem KfsOk.exit (h : KfsOk s) (hs : s.exit p = some s') : KfsOk s' := by
  unfold Kfs.exit at hs
  simp only [bind, Option.bind_eq_some_iff] at hs
  obtain ⟨ft, hft, s1, hw, hs⟩ := hs
  have hpi : p ≠ initproc := by
    rintro rfl
    unfold Ftable.exit at hft
    rw [if_pos rfl] at hft
    cases hft
  have hf : FtOk ft := by
    obtain ⟨ft', hft', hok⟩ := h.files.exit hpi
    rw [hft] at hft'
    exact Option.some.inj hft' ▸ hok
  have hr := Ftable.releases_exit hft
  obtain ⟨hR, hl, hft1, hc1⟩ :=
    h.refs.withFiles hw (Kfs.held_withFiles h.files hf (by rw [hr.2.1, List.append_nil]) hr.2.2 [])
  cases hcp : s1.cwd p with
  | none =>
    rw [hcp] at hs
    cases hs
  | some c =>
    rw [hcp] at hs
    obtain ⟨it, hput, hs⟩ := Option.bind_eq_some_iff.mp hs
    cases hs
    -- `p` gives its `cwd` to the call, which puts it
    have h2 : RefOk s1.it s1.holders (refOf none ++ []) := hR
    have h3 := h2.setCwd p
    rw [hcp] at h3
    refine ⟨hft1 ▸ hf, h3.iput hput, fun i => (congrFun ((iput_locks hput).trans hl) i).trans (h.unlocked i),
      fun q => ?_⟩
    show s1.ft.life q = .live ↔ Function.update s1.cwd p none q ≠ none
    rw [hft1, hr.1, hc1]
    exact live_iff_update h.cwd_live p .zombie none (by simp) q

/-- `chdir`: the new directory's reference passes from the call to `p`, and the old `cwd`'s from
`p` to the call, which puts it. -/
theorem KfsOk.sysChdir (h : KfsOk s) {path : List Char} {r : Int} (hs : s.sysChdir p path = some (r, s')) :
    KfsOk s' := by
  unfold Kfs.sysChdir at hs
  simp only [bind, Option.bind_eq_some_iff] at hs
  obtain ⟨⟨r1, t1⟩, h1, hs⟩ := hs
  obtain ⟨hR1, hl1⟩ := h.refs.namei (Kfs.cwd_held s p) h1
  rcases r1 with _ | ip
  · cases hs
    exact h.setIt hR1 hl1
  obtain ⟨t2, h2, hs⟩ := Option.bind_eq_some_iff.mp hs
  obtain ⟨hs2, hl2, hl20⟩ := ilock_spec h2
  have hL : Function.update t2.locks ip false = s.it.locks := by
    rw [hl2, update_lock_unlock hl20, hl1]
  split_ifs at hs
  · -- not a directory
    obtain ⟨t3, h3, hs⟩ := Option.bind_eq_some_iff.mp hs
    cases hs
    obtain ⟨hR3, hl3, -⟩ := (hR1.same hs2).iunlockput h3
    exact h.setIt hR3 (hl3.trans hL)
  obtain ⟨t3, h3, hs⟩ := Option.bind_eq_some_iff.mp hs
  obtain ⟨hs3, hl3, -⟩ := iunlock_spec h3
  cases hcp : s.cwd p with
  | none =>
    rw [hcp] at hs
    cases hs
  | some c =>
    rw [hcp] at hs
    obtain ⟨t4, h4, hs⟩ := Option.bind_eq_some_iff.mp hs
    cases hs
    have h5 := ((hR1.same hs2).same hs3).setCwd p
    rw [hcp] at h5
    refine ⟨h.files, h5.iput h4, fun i => (congrFun ((iput_locks h4).trans (hl3.trans hL)) i).trans
      (h.unlocked i), fun q => ?_⟩
    show s.ft.life q = .live ↔ Function.update s.cwd p (some ip) q ≠ none
    have hq := live_iff_update h.cwd_live p (s.ft.life p) (some ip)
      ⟨fun _ => by simp, fun _ => (h.cwd_live p).mpr (by simp [hcp])⟩ q
    rwa [Function.update_eq_self] at hq

/-- `O_TRUNC`'s `itrunc` empties the file on the disk and leaves the table as it is. -/
theorem trunc_inode (c : Prop) [Decidable c] (t : Itable) (i : Fin NINODE) :
    (if c then t.itrunc i else t).inode = t.inode := by
  split_ifs <;> rfl

/-- The end of `open`: the inode, truncated or not, is unlocked. -/
theorem RefOk.truncUnlock {t t' : Itable} {ext : Fin NINODE → Nat} {loc : List Nat} {i : Fin NINODE}
    {c : Prop} [Decidable c] (h : RefOk t ext loc) (hu : (if c then t.itrunc i else t).iunlock i = some t') :
    RefOk t' ext loc ∧ t'.locks = Function.update t.locks i false := by
  obtain ⟨hs, hl, -⟩ := iunlock_spec hu
  have he := trunc_inode c t i
  refine ⟨(h.same (SameRefs.of_inode he)).same hs, ?_⟩
  rw [hl]
  unfold Itable.locks
  rw [he]

/-- `open`: the inode `create` or `namei` returns, locked, passes to the new file, or is put on
each error path; its lock is given back on every path. -/
theorem KfsOk.sysOpen (h : KfsOk s) (hp : s.ft.life p = .live) {path : List Char} {omode : Int32} {b : Bool}
    {r : Int} (hs : s.sysOpen p path omode b = some (r, s')) : KfsOk s' := by
  unfold Kfs.sysOpen at hs
  simp only [bind, Option.bind_eq_some_iff] at hs
  obtain ⟨⟨r1, t1⟩, h1, hs⟩ := hs
  obtain ⟨hR1, hl1, -⟩ : RefOk t1 s.holders (refOf r1 ++ []) ∧ t1.locks = lockOf s.it.locks r1 ∧
      ∀ ip, r1 = some ip → s.it.locks ip = false := by
    split_ifs at h1
    · exact h.refs.create (Kfs.cwd_held s p) h1
    · exact h.refs.openi (Kfs.cwd_held s p) h1
  rcases r1 with _ | ip
  · cases hs
    exact h.setIt hR1 hl1
  have hL : Function.update t1.locks ip false = s.it.locks := by
    rw [hl1, lockOf_some, update_lock_unlock (h.unlocked ip)]
  dsimp only at hs
  split at hs
  · -- a device with a bad major
    obtain ⟨t2, h2, hs⟩ := Option.bind_eq_some_iff.mp hs
    cases hs
    obtain ⟨hR2, hl2, -⟩ := hR1.iunlockput h2
    exact h.setIt hR2 (hl2.trans hL)
  obtain ⟨⟨fd, ft⟩, h2, hs⟩ := Option.bind_eq_some_iff.mp hs
  obtain ⟨s3, h3, hs⟩ := Option.bind_eq_some_iff.mp hs
  have hf : FtOk ft := FtOk.of_call (h.files.sysOpen hp _ omode) (by rw [h2]; rfl)
  dsimp only at hs
  rcases Ftable.sysOpen_opens h2 with ⟨hfd, hlife, ho, hi⟩ | ⟨hfd, hr⟩
  · -- the new file holds the reference
    obtain ⟨hR3, hl3, hft3, hc3⟩ := hR1.withFiles h3 (Kfs.held_withFiles h.files hf ho hi [])
    rw [if_neg (by omega)] at hs
    obtain ⟨t4, h4, hs⟩ := Option.bind_eq_some_iff.mp hs
    cases hs
    obtain ⟨hR4, hl4⟩ := hR3.truncUnlock h4
    have hf3 : FtOk s3.ft := by rw [hft3]; exact hf
    exact h.of_call hf3 (by show s3.ft.life = _; rw [hft3]; exact hlife) hc3 hR4
      (hl4.trans (by rw [hl3]; exact hL))
  · -- no file: the reference is put
    obtain ⟨hR3, hl3, hft3, hc3⟩ :=
      hR1.withFiles h3 (Kfs.held_withFiles h.files hf (by rw [hr.2.1, List.append_nil]) hr.2.2 [ip.val])
    rw [if_pos hfd] at hs
    obtain ⟨t4, h4, hs⟩ := Option.bind_eq_some_iff.mp hs
    cases hs
    obtain ⟨hR4, hl4, -⟩ := hR3.iunlockput h4
    have hf3 : FtOk s3.ft := by rw [hft3]; exact hf
    exact h.of_call hf3 (by show s3.ft.life = _; rw [hft3]; exact hr.1) hc3 hR4
      (hl4.trans (by rw [hl3]; exact hL))

/-- `wait` frees a zombie, which has neither descriptors nor a `cwd`. -/
theorem KfsOk.reap (h : KfsOk s) (hz : s.ft.life p = .zombie) :
    KfsOk { s with ft := { s.ft with life := Function.update s.ft.life p .unused } } := by
  have hcp : s.cwd p = none := by
    by_contra hne
    have hl := (h.cwd_live p).mpr hne
    rw [hz] at hl
    cases hl
  refine ⟨FtInv.setLife h.files p .unused fun _ => h.files.dead p (by simp [hz]), h.refs, h.unlocked,
    fun q => ?_⟩
  have hq := live_iff_update h.cwd_live p .unused none (by simp) q
  have hcu : Function.update s.cwd p none = s.cwd := Function.update_eq_self_iff.mpr hcp.symm
  rwa [hcu] at hq

end Steps

/-! ### Every call, and every reachable state -/

/-- Every call keeps the invariant, on every path that does not panic. -/
theorem KfsOk.step {s s' : Kfs} (h : KfsOk s) {c : FsCall} (hs : kfsStep s c = some s') : KfsOk s' := by
  unfold kfsStep at hs
  split at hs
  · rename_i p
    split_ifs at hs with hz
    cases hs
    exact h.reap hz
  rename_i hnr
  split at hs
  · cases hs
  rename_i hp
  -- every other call is made by a live process, whose `cwd` is held outside the call
  cases c with
  | sysOpen p path omode b =>
    obtain ⟨⟨r, t⟩, ht, rfl⟩ := Option.map_eq_some_iff.mp hs
    exact h.sysOpen (not_not.mp hp) ht
  | sysDup p n =>
    have hl : s.ft.life p = .live := not_not.mp hp
    exact h.onFt (fun r ft he => ⟨FtOk.of_call (h.files.sysDup hl n) (by rw [he]; rfl),
      Ftable.releases_sysDup he⟩) hs
  | sysClose p n =>
    exact h.onFt (fun r ft he => ⟨FtOk.of_call (h.files.sysClose n) (by rw [he]; rfl),
      Ftable.releases_sysClose he⟩) hs
  | sysPipe p k c =>
    have hl : s.ft.life p = .live := not_not.mp hp
    exact h.onFt (fun r ft he => ⟨FtOk.of_call (h.files.sysPipe hl k c) (by rw [he]; rfl),
      Ftable.releases_sysPipe he⟩) hs
  | sysLink p old new b => exact h.onIt (fun _ _ he => h.refs.sysLink (Kfs.cwd_held s p) he) hs
  | sysUnlink p path => exact h.onIt (fun _ _ he => h.refs.sysUnlink (Kfs.cwd_held s p) he) hs
  | sysMkdir p path b => exact h.onIt (fun _ _ he => h.refs.sysMkdir (Kfs.cwd_held s p) he) hs
  | sysMknod p path major minor b =>
    exact h.onIt (fun _ _ he => h.refs.sysMknod (Kfs.cwd_held s p) he) hs
  | sysChdir p path =>
    obtain ⟨⟨r, t⟩, ht, rfl⟩ := Option.map_eq_some_iff.mp hs
    exact h.sysChdir ht
  | exec p path =>
    obtain ⟨t, ht, rfl⟩ := Option.map_eq_some_iff.mp hs
    obtain ⟨hR, hl⟩ := h.refs.exec (Kfs.cwd_held s p) ht
    exact h.setIt hR hl
  | fork p copyOk => exact h.fork hs
  | exit p =>
    dsimp only at hs
    split_ifs at hs
    exact h.exit hs
  | reap p => exact absurd rfl (hnr p)

theorem held_init (ip : Nat) : held Ftable.init.file ip = 0 := by
  simp [Ftable.init, held, File.heldIp]

/-- At boot only `initproc` has a `cwd`, the root in entry `0`. -/
theorem cwds_init (d : Nat → DiskInode) (i : Fin NINODE) :
    cwds (Kfs.init d).cwd i = (refOf (some ⟨0, by decide⟩)).count i.val := by
  have he : (Kfs.init d).cwd = Function.update (fun _ => none) initproc (some ⟨0, by decide⟩) := by
    funext q
    by_cases hq : q = initproc
    · subst hq
      simp [Kfs.init]
    · simp [Kfs.init, hq]
  have hu := cwds_update (fun _ => none) initproc (some ⟨0, by decide⟩) i
  have h0 : cwds (fun _ => none) i = 0 := by simp [cwds]
  rw [← he, h0] at hu
  simpa using hu

theorem kfsOk_init (d : Nat → DiskInode) : KfsOk (Kfs.init d) := by
  have href : ∀ i, ((Kfs.init d).it.inode i).ref = (Kfs.init d).holders i + ([] : List Nat).count i.val := by
    intro i
    have h0 : held (Kfs.init d).ft.file i.val = 0 := held_init i.val
    rw [Kfs.holders, cwds_init, h0, List.count_nil, Nat.zero_add, Nat.add_zero, count_refOf]
    by_cases hi : i = ⟨0, by decide⟩
    · subst hi
      simp [Kfs.init]
    · simp [Kfs.init, hi, Itable.boot, Ne.symm hi]
  -- only entry `0` has a reference
  have hpos : ∀ i, 0 < ((Kfs.init d).it.inode i).ref → i = ⟨0, by decide⟩ := by
    intro i hi
    by_contra hne
    simp [Kfs.init, hne, Itable.boot] at hi
  refine ⟨ftOk_init, ⟨href, fun i j hi hj _ _ => (hpos i hi).trans (hpos j hj).symm⟩, fun i => ?_,
    fun q => ?_⟩
  · by_cases hi : i = ⟨0, by decide⟩
    · subst hi
      simp [Kfs.init, Itable.locks]
    · simp [Kfs.init, Itable.locks, hi, Itable.boot]
  · by_cases hq : q = initproc
    · subst hq
      simp [Kfs.init, Ftable.init]
    · simp [Kfs.init, Ftable.init, hq]

theorem KfsReachable.kfsOk {d : Nat → DiskInode} {s : Kfs} (h : KfsReachable d s) : KfsOk s :=
  LTS.Reachable.inv (kfsOk_init d) (fun _ _ _ hs e => hs.step e) h

/-- Over every sequence of `open`, `dup`, `close`, `pipe`, `link`, `unlink`, `mkdir`, `mknod`,
`chdir`, `exec`, `fork`, `exit` and `wait`, error paths included, between calls: two entries of
the inode table with references are two inodes; each entry's `ref` is the number of open files
of it and of processes whose `cwd` it is; no sleep-lock is held; and `iget` panics with `no
inodes` only when every entry has a reference. -/
theorem itable_refs_exact {d : Nat → DiskInode} {s : Kfs} (h : KfsReachable d s) :
    (∀ i j, 0 < (s.it.inode i).ref → 0 < (s.it.inode j).ref →
      (s.it.inode i).dev = (s.it.inode j).dev → (s.it.inode i).inum = (s.it.inode j).inum → i = j) ∧
    (∀ i, (s.it.inode i).ref = held s.ft.file i.val + cwds s.cwd i) ∧
    (∀ i, (s.it.inode i).locked = false) ∧
    ∀ (t : Itable) dev inum, t.iget dev inum = none → ∀ i, 0 < (t.inode i).ref := by
  have hok := h.kfsOk
  refine ⟨hok.refs.unique, fun i => ?_, hok.unlocked, fun t dev inum hg i => iget_eq_none hg i⟩
  rw [hok.refs.ref_eq i, List.count_nil, Nat.add_zero]
  rfl

/-- `initproc` forks twice: the root's entry has a reference for each of the three `cwd`s. -/
theorem itable_refs_exact_fork :
    ∃ s, KfsReachable (fun _ => DiskInode.zero) s ∧ (s.it.inode ⟨0, NINODE_pos⟩).ref = 3 ∧
      ∀ i, (s.it.inode i).ref = held s.ft.file i.val + cwds s.cwd i := by
  obtain ⟨s, hs, h⟩ : ∃ s, KfsReachable (fun _ => DiskInode.zero) s ∧ (s.it.inode ⟨0, NINODE_pos⟩).ref = 3 :=
    LTS.exists_reachable_of_run [.fork initproc true, .fork initproc true] (by decide)
  exact ⟨s, hs, h, (itable_refs_exact hs).2.1⟩

end Xv6Sched
