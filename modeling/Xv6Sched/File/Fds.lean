import Xv6Sched.Lib.Slots
import Xv6Sched.File.FtableInv

/-!
# Xv6Sched.File.Fds — one process's descriptors, as the process sees them

What a program sees of `close`, `dup`, `open` and `pipe`: its own descriptors `p->ofile`, a
table of `NOFILE` slots that fills its lowest free slot (`Slots`), each slot free or holding
an open file.  The file a slot holds is left abstract (`β`), so that a program's model can name
the files it makes; `open` and `pipe` take the files the kernel hands out, and whether the kernel
can make them at all (`ok`), as arguments.

The second half shows that this is what the kernel does: from a file table between system calls
(`FtOk`), `sys_close`, `sys_dup`, `sys_open` and `sys_pipe` of `kernel/sysfile.c` return what
these return and change the calling process's descriptors as these do, and no other process's,
on every path (`sysClose_ofile`, `sysDup_ofile`, `sysOpen_ofile`, `sysPipe_ofile`).  A failure
after a descriptor was taken (no second descriptor for a pipe, a failed `copyout`) gives it back,
so the descriptors are as they were whenever the call returns `-1`.
-/

namespace Xv6Sched

/-- The descriptors of one process, `p->ofile[NOFILE]`, each free or holding a file. -/
abbrev Fds (β : Type) := Fin NOFILE → Option β

namespace Fds

variable {β : Type}

/-- `argfd(n)`: descriptor `n` and the file it holds; `none` is `-1`. -/
def argfd (t : Fds β) (n : Int) : Option (Fin NOFILE × β) :=
  if h : 0 ≤ n ∧ n.toNat < NOFILE then
    (t ⟨n.toNat, h.2⟩).map fun f => (⟨n.toNat, h.2⟩, f)
  else none

/-- `close(n)`: `0` with the descriptor freed, or `-1`. -/
def close (t : Fds β) (n : Int) : Int × Fds β :=
  match argfd t n with
  | none => (-1, t)
  | some (fd, _) => (0, Function.update t fd none)

/-- `dup(n)`: the lowest free descriptor, now holding the file of `n`, or `-1`. -/
def dup (t : Fds β) (n : Int) : Int × Fds β :=
  match argfd t n with
  | none => (-1, t)
  | some (_, f) =>
    match Slots.alloc t f with
    | none => (-1, t)
    | some (fd, t) => ((fd : Nat), t)

/-- `open(path, omode)` of a file the kernel opens as `f` when `ok`: the lowest free
descriptor, now holding `f`, or `-1`. -/
def «open» (ok : Bool) (t : Fds β) (f : β) : Int × Fds β :=
  if ok then
    match Slots.alloc t f with
    | none => (-1, t)
    | some (fd, t) => ((fd : Nat), t)
  else (-1, t)

/-- `pipe(p)` of a pipe the kernel makes with the ends `r` and `w` when `ok`: `p[0]` and `p[1]`,
the two lowest free descriptors, holding the read and the write end; `none` is `-1`, with the
descriptors as they were. -/
def pipe (ok : Bool) (t : Fds β) (r w : β) : Option (Fin NOFILE × Fin NOFILE × Fds β) :=
  if ok then
    match Slots.alloc t r with
    | none => none
    | some (fd0, t) =>
      match Slots.alloc t w with
      | none => none
      | some (fd1, t) => some (fd0, fd1, t)
  else none

variable {t t' : Fds β} {fd i fd0 fd1 : Fin NOFILE} {f r w : β}

theorem argfd_of_some (h : t fd = some f) : argfd t (fd.val : Int) = some (fd, f) := by
  unfold argfd
  rw [dif_pos ⟨Int.natCast_nonneg _, by simp⟩]
  simp [h]

/-- After `close(k)` descriptor `k` is free, whether it was open or not. -/
theorem close_natCast {k : Nat} (hk : k < NOFILE) : (close t k).2 = Function.update t ⟨k, hk⟩ none := by
  cases h : t ⟨k, hk⟩ with
  | none =>
    have ha : argfd t k = none := by
      unfold argfd
      rw [dif_pos ⟨Int.natCast_nonneg _, by simpa using hk⟩]
      simp [h]
    rw [close, ha]
    exact (Function.update_eq_self_iff.mpr h.symm).symm
  | some f =>
    have ha : argfd t k = some (⟨k, hk⟩, f) := argfd_of_some h
    rw [close, ha]

/-- `dup` of an open descriptor when `i` is the lowest free one. -/
theorem dup_of_lowest (h : t fd = some f) (hi : t i = none) (hlow : ∀ j, j < i → t j ≠ none) :
    dup t fd.val = (((i : Nat) : Int), Function.update t i (some f)) := by
  unfold dup
  rw [argfd_of_some h]
  dsimp only
  rw [Slots.alloc_lowest hi hlow]

/-- What a successful `pipe` did: the read end went into the lowest free descriptor and the
write end into the lowest one left. -/
theorem pipe_eq_some {ok : Bool} (h : pipe ok t r w = some (fd0, fd1, t')) :
    ok = true ∧ Slots.alloc t r = some (fd0, Function.update t fd0 (some r)) ∧
      Slots.alloc (Function.update t fd0 (some r)) w =
        some (fd1, Function.update (Function.update t fd0 (some r)) fd1 (some w)) ∧
      t' = Function.update (Function.update t fd0 (some r)) fd1 (some w) := by
  unfold pipe at h
  split at h
  · next hok =>
    cases h0 : Slots.alloc t r with
    | none => rw [h0] at h; cases h
    | some a =>
      obtain ⟨g0, t0⟩ := a
      rw [h0] at h
      dsimp only at h
      cases h1 : Slots.alloc t0 w with
      | none => rw [h1] at h; cases h
      | some b =>
        obtain ⟨g1, t1⟩ := b
        rw [h1] at h
        simp only [Option.some.injEq, Prod.mk.injEq] at h
        obtain ⟨rfl, rfl, rfl⟩ := h
        obtain ⟨-, -, rfl⟩ := Slots.alloc_eq_some.mp h0
        obtain ⟨-, -, rfl⟩ := Slots.alloc_eq_some.mp h1
        exact ⟨hok, rfl, h1, rfl⟩
  · cases h

/-- A `pipe` the kernel can make succeeds when two descriptors are free. -/
theorem pipe_isSome (hi : t i = none) (hj : t fd = none) (hne : i ≠ fd) :
    ∃ fd0 fd1 t', pipe true t r w = some (fd0, fd1, t') := by
  obtain ⟨g0, t0, h0⟩ := Slots.alloc_isSome (a := r) hi
  obtain ⟨hg0, -, rfl⟩ := Slots.alloc_eq_some.mp h0
  -- one of the two free descriptors is still free after the first allocation
  have hfree : ∃ k, Function.update t g0 (some r) k = none := by
    by_cases hg : g0 = i
    · exact ⟨fd, by rw [Function.update_of_ne (fun e => hne (hg ▸ e.symm)), hj]⟩
    · exact ⟨i, by rw [Function.update_of_ne (Ne.symm hg), hi]⟩
  obtain ⟨k, hk⟩ := hfree
  obtain ⟨g1, t1, h1⟩ := Slots.alloc_isSome (a := w) hk
  refine ⟨g0, g1, t1, ?_⟩
  simp only [pipe, if_true, h0, h1]

end Fds

/-! ### The kernel's system calls on the caller's descriptors -/

namespace Ftable

variable {s s' : Ftable} {p : Fin NPROC} {f : Fin NFILE}

/-- The kernel's `argfd` reads the caller's descriptors as the process's `argfd` does. -/
theorem argfd_eq (n : Int) : s.argfd p n = Fds.argfd (s.ofile p) n := by
  unfold argfd Fds.argfd
  by_cases h : 0 ≤ n ∧ n < NOFILE
  · rw [dif_pos h, dif_pos ⟨h.1, by omega⟩]
  · rw [dif_neg h, dif_neg (fun h' => h ⟨h'.1, by omega⟩)]

theorem fdalloc_eq_alloc :
    s.fdalloc p f = (Slots.alloc (s.ofile p) f).map fun r => (r.1, s.setOfile p r.1 (some f)) := by
  unfold fdalloc Slots.alloc
  rw [Option.map_map]
  rfl

theorem alloc_of_fdalloc_none (h : s.fdalloc p f = none) : Slots.alloc (s.ofile p) f = none := by
  rw [fdalloc_eq_alloc] at h
  exact Option.map_eq_none_iff.mp h

theorem alloc_of_fdalloc_some {fd : Fin NOFILE} (h : s.fdalloc p f = some (fd, s')) :
    Slots.alloc (s.ofile p) f = some (fd, Function.update (s.ofile p) fd (some f)) := by
  rw [fdalloc_eq_alloc] at h
  obtain ⟨⟨g, t⟩, hs, he⟩ := Option.map_eq_some_iff.mp h
  obtain ⟨rfl, -⟩ := Prod.mk.inj he
  obtain ⟨-, -, rfl⟩ := Slots.alloc_eq_some.mp hs
  exact hs

/-- `fileclose` and with it the error path of `sys_pipe` leave every descriptor alone. -/
theorem pipeFail_eq {rf wf : Fin NFILE} {r : Int} (h : s.pipeFail rf wf = some (r, s')) :
    r = -1 ∧ s'.ofile = s.ofile := by
  unfold pipeFail at h
  cases h0 : s.fileclose rf with
  | none => simp [h0] at h
  | some s1 =>
    cases h1 : s1.fileclose wf with
    | none => simp [h0, h1] at h
    | some s2 =>
      simp only [h0, h1, Option.bind_eq_bind, Option.bind_some, Option.pure_def,
        Option.some.injEq, Prod.mk.injEq] at h
      obtain ⟨rfl, rfl⟩ := h
      exact ⟨rfl, by rw [(fileclose_frame h1).1, (fileclose_frame h0).1]⟩

theorem closeIf_ofile {o : Option (Fin NFILE)} (h : s.closeIf o = some s') : s'.ofile = s.ofile := by
  cases o with
  | none => cases h; rfl
  | some f => exact (fileclose_frame h).1

theorem pipeallocBad_ofile {f0 f1 : Option (Fin NFILE)} {r : Option (Fin NFILE × Fin NFILE)}
    (h : s.pipeallocBad f0 f1 = some (r, s')) : s'.ofile = s.ofile := by
  unfold pipeallocBad at h
  cases h0 : s.closeIf f0 with
  | none => simp [h0] at h
  | some s1 =>
    cases h1 : s1.closeIf f1 with
    | none => simp [h0, h1] at h
    | some s2 =>
      simp only [h0, h1, Option.bind_eq_bind, Option.bind_some, Option.pure_def,
        Option.some.injEq, Prod.mk.injEq] at h
      obtain ⟨-, rfl⟩ := h
      rw [closeIf_ofile h1, closeIf_ofile h0]

/-- `pipealloc` touches entries and pipes, never a descriptor. -/
theorem pipealloc_ofile {k : Bool} {r : Option (Fin NFILE × Fin NFILE)}
    (h : s.pipealloc k = some (r, s')) : s'.ofile = s.ofile := by
  unfold pipealloc at h
  cases ha : s.filealloc with
  | none =>
    rw [ha] at h
    exact pipeallocBad_ofile h
  | some a =>
    obtain ⟨f0, s1⟩ := a
    have h1 : s1.ofile = s.ofile := by rw [(filealloc_eq_some ha).2]; rfl
    rw [ha] at h
    dsimp only at h
    cases hb : s1.filealloc with
    | none =>
      rw [hb] at h
      rw [pipeallocBad_ofile h, h1]
    | some b =>
      obtain ⟨f1, s2⟩ := b
      have h2 : s2.ofile = s.ofile := by rw [(filealloc_eq_some hb).2, ← h1]; rfl
      rw [hb] at h
      dsimp only at h
      cases k with
      | false => exact (pipeallocBad_ofile h).trans h2
      | true =>
        simp only [Bool.not_true, Bool.false_eq_true, if_false, Option.some.injEq,
          Prod.mk.injEq] at h
        obtain ⟨-, rfl⟩ := h
        exact h2

end Ftable

section Calls

open Ftable

variable {s : Ftable} {p : Fin NPROC}

/-- `sys_close(n)` returns what `close(n)` returns, and the caller's descriptors become what
`close` makes of them; no other process's change. -/
theorem sysClose_ofile (h : FtOk s) (n : Int) :
    (s.sysClose p n).map (fun r => (r.1, r.2.ofile)) =
      some ((Fds.close (s.ofile p) n).1, Function.update s.ofile p (Fds.close (s.ofile p) n).2) := by
  unfold sysClose Fds.close
  rw [← argfd_eq]
  cases ha : s.argfd p n with
  | none => simp
  | some a =>
    obtain ⟨d, f⟩ := a
    -- the descriptor's reference passes to the call, whose `fileclose` cannot panic
    obtain ⟨s', hc, -⟩ := (FtInv.unslot h (argfd_eq_some ha)).fileclose
    dsimp only
    rw [hc]
    simp [(fileclose_frame hc).1]

/-- After an `open` by `initproc`, `close(0)` closes the descriptor it got. -/
theorem sysClose_ofile_open :
    ∃ s, FtOk s ∧ s.ofile initproc ⟨0, by decide⟩ ≠ none ∧ (Fds.close (s.ofile initproc) 0).1 = 0 ∧
      (s.sysClose initproc 0).map (fun r => (r.1, r.2.ofile)) =
        some ((Fds.close (s.ofile initproc) 0).1, Function.update s.ofile initproc (Fds.close (s.ofile initproc) 0).2) := by
  obtain ⟨s, hs, h0, h1⟩ : ∃ s, FileReachable s ∧ s.ofile initproc ⟨0, by decide⟩ ≠ none ∧
      (Fds.close (s.ofile initproc) 0).1 = 0 :=
    LTS.exists_reachable_of_run [.sysOpen initproc (some (1, false)) O_RDWR] (by decide)
  exact ⟨s, hs.ftOk, h0, h1, sysClose_ofile hs.ftOk 0⟩

/-- `sys_dup(n)` is `dup(n)` on the caller's descriptors. -/
theorem sysDup_ofile (h : FtOk s) (n : Int) :
    (s.sysDup p n).map (fun r => (r.1, r.2.ofile)) =
      some ((Fds.dup (s.ofile p) n).1, Function.update s.ofile p (Fds.dup (s.ofile p) n).2) := by
  unfold sysDup Fds.dup
  rw [← argfd_eq]
  cases ha : s.argfd p n with
  | none => simp
  | some a =>
    obtain ⟨d, f⟩ := a
    -- the file a descriptor holds is open, so `filedup` cannot panic
    have hpos : 0 < (s.file f).ref := FtInv.ref_pos h (argfd_eq_some ha)
    dsimp only
    cases hd : s.fdalloc p f with
    | none => simp [alloc_of_fdalloc_none hd]
    | some b =>
      obtain ⟨fd, s1⟩ := b
      obtain ⟨-, rfl⟩ := fdalloc_eq_some hd
      rw [alloc_of_fdalloc_some hd]
      dsimp only
      rw [filedup_of_pos (by simpa using hpos)]
      simp

/-- After an `open` by `initproc`, `dup(0)` gives descriptor `1`. -/
theorem sysDup_ofile_open :
    ∃ s, FtOk s ∧ s.ofile initproc ⟨0, by decide⟩ ≠ none ∧ (Fds.dup (s.ofile initproc) 0).1 = 1 ∧
      (s.sysDup initproc 0).map (fun r => (r.1, r.2.ofile)) =
        some ((Fds.dup (s.ofile initproc) 0).1, Function.update s.ofile initproc (Fds.dup (s.ofile initproc) 0).2) := by
  obtain ⟨s, hs, h0, h1⟩ : ∃ s, FileReachable s ∧ s.ofile initproc ⟨0, by decide⟩ ≠ none ∧
      (Fds.dup (s.ofile initproc) 0).1 = 1 :=
    LTS.exists_reachable_of_run [.sysOpen initproc (some (1, false)) O_RDWR] (by decide)
  exact ⟨s, hs.ftOk, h0, h1, sysDup_ofile hs.ftOk 0⟩

/-- `sys_open` is `open` on the caller's descriptors, of the entry `filealloc` takes: `-1` with the
descriptors as they were when the path gave no inode or the table has no free entry, and
otherwise what `open` returns, the lowest free descriptor now holding that entry or `-1` when
there is none. -/
theorem sysOpen_ofile (h : FtOk s) (ip : Option (Nat × Bool)) (omode : Int32) :
    (s.sysOpen p ip omode).map (fun r => (r.1, r.2.ofile)) =
      match ip, s.filealloc with
      | some _, some (f, _) =>
        some ((Fds.open true (s.ofile p) f).1, Function.update s.ofile p (Fds.open true (s.ofile p) f).2)
      | _, _ => some (-1, s.ofile) := by
  unfold sysOpen
  rcases ip with _ | ⟨ip, dev⟩
  · rfl
  dsimp only
  cases ha : s.filealloc with
  | none => rfl
  | some a =>
    obtain ⟨f, s1⟩ := a
    obtain ⟨h1, -, -⟩ := FtInv.filealloc h ha
    have hs1 : s1.ofile = s.ofile := by rw [(filealloc_eq_some ha).2]; rfl
    dsimp only
    cases hd : s1.fdalloc p f with
    | none =>
      -- no free descriptor: the entry goes back
      have hn := alloc_of_fdalloc_none hd
      rw [hs1] at hn
      obtain ⟨s2, hc, -⟩ := h1.fileclose
      rw [hc]
      simp [Fds.open, hn, (fileclose_frame hc).1, hs1]
    | some b =>
      obtain ⟨fd, s2⟩ := b
      have hn := alloc_of_fdalloc_some hd
      rw [hs1] at hn
      obtain ⟨-, rfl⟩ := fdalloc_eq_some hd
      simp [Fds.open, hn, hs1]

theorem sysOpen_ofile_init :
    FtOk Ftable.init ∧ (Ftable.init.sysOpen initproc (some (1, true)) O_RDWR).map (fun r => (r.1, r.2.ofile)) =
      match some (1, true), Ftable.init.filealloc with
      | some _, some (f, _) =>
        some ((Fds.open true (Ftable.init.ofile initproc) f).1,
          Function.update Ftable.init.ofile initproc (Fds.open true (Ftable.init.ofile initproc) f).2)
      | _, _ => some (-1, Ftable.init.ofile) :=
  ⟨ftOk_init, sysOpen_ofile ftOk_init (some (1, true)) O_RDWR⟩

/-- `sys_pipe` is `pipe` on the caller's descriptors, of the two entries `pipealloc` takes: `-1`
with the descriptors as they were when `pipealloc` fails (no two free entries, or no page for the
pipe) or a `copyout` of the descriptors fails, and otherwise what `pipe` returns, the read end in
the lowest free descriptor and the write end in the next, or `-1` when there are not two. -/
theorem sysPipe_ofile (h : FtOk s) (hp : s.life p = .live) (k c : Bool) :
    (s.sysPipe p k c).map (fun r => (r.1, r.2.ofile)) =
      some (match (s.pipealloc k).bind Prod.fst with
        | some (rf, wf) =>
          match Fds.pipe true (s.ofile p) rf wf with
          | some (_, _, t) => if c then (0, Function.update s.ofile p t) else (-1, s.ofile)
          | none => (-1, s.ofile)
        | none => (-1, s.ofile)) := by
  obtain ⟨r, s1, ha, hl1, hr⟩ := h.pipealloc k
  have hs1 : s1.ofile = s.ofile := pipealloc_ofile ha
  unfold sysPipe
  rw [ha, Option.bind_some]
  rcases hr with ⟨rfl, -⟩ | ⟨rf, wf, rfl, h1⟩
  · simp [hs1]
  have hp1 : s1.life p = .live := by rw [hl1]; exact hp
  dsimp only
  cases hd0 : s1.fdalloc p rf with
  | none =>
    have hn := alloc_of_fdalloc_none hd0
    rw [hs1] at hn
    obtain ⟨r', s2, hf, -⟩ := (h1.perm (List.Perm.swap rf wf [])).pipeFail
    obtain ⟨rfl, h2⟩ := pipeFail_eq hf
    simp [hf, Fds.pipe, hn, h2, hs1]
  | some b =>
    obtain ⟨fd0, s2⟩ := b
    have h2 := (h1.perm (List.Perm.swap rf wf [])).fdalloc hp1 hd0
    have hn0 := alloc_of_fdalloc_some hd0
    rw [hs1] at hn0
    obtain ⟨hfd0, rfl⟩ := fdalloc_eq_some hd0
    have hslot0 : (s1.setOfile p fd0 (some rf)).ofile p fd0 = some rf := by simp
    have hrow0 : (s1.setOfile p fd0 (some rf)).ofile p = Function.update (s.ofile p) fd0 (some rf) := by
      simp [hs1]
    dsimp only
    cases hd1 : (s1.setOfile p fd0 (some rf)).fdalloc p wf with
    | none =>
      -- no second descriptor: the first is given back
      have hn1 := alloc_of_fdalloc_none hd1
      rw [hrow0] at hn1
      obtain ⟨r', s3, hf, -⟩ := (h2.unslot hslot0).pipeFail
      obtain ⟨rfl, h3⟩ := pipeFail_eq hf
      rw [hf]
      have hback : Function.update (Function.update (s.ofile p) fd0 (some rf)) fd0 none = s.ofile p :=
        Slots.update_update_of_none (by rw [← hs1]; exact hfd0)
      simp [Fds.pipe, hn0, hn1, h3, hs1, hback]
    | some c' =>
      obtain ⟨fd1, s3⟩ := c'
      have h3 := h2.fdalloc hp1 hd1
      have hn1 := alloc_of_fdalloc_some hd1
      rw [hrow0] at hn1
      obtain ⟨hfd1, rfl⟩ := fdalloc_eq_some hd1
      have hne : fd1 ≠ fd0 := by
        rintro rfl
        rw [hslot0] at hfd1
        cases hfd1
      dsimp only
      cases c with
      | true => simp [Fds.pipe, hn0, hn1, hs1]
      | false =>
        -- a `copyout` failed: both descriptors are given back
        have hs0 : ((s1.setOfile p fd0 (some rf)).setOfile p fd1 (some wf)).ofile p fd0 = some rf := by
          simp [Function.update_of_ne hne.symm]
        have hsl1 : (((s1.setOfile p fd0 (some rf)).setOfile p fd1 (some wf)).setOfile p fd0 none).ofile p fd1 =
            some wf := by
          simp [Function.update_of_ne hne]
        obtain ⟨r', s4, hf, -⟩ := ((h3.unslot hs0).unslot hsl1 |>.perm (List.Perm.swap rf wf [])).pipeFail
        obtain ⟨rfl, h4⟩ := pipeFail_eq hf
        rw [hf]
        have hfree0 : s.ofile p fd0 = none := by rw [← hs1]; exact hfd0
        have hfree1 : Function.update (s.ofile p) fd0 (some rf) fd1 = none := by
          rw [← hrow0]; exact hfd1
        have hback : Function.update (Function.update (Function.update (Function.update (s.ofile p) fd0
            (some rf)) fd1 (some wf)) fd0 none) fd1 none = s.ofile p := by
          rw [Function.update_comm hne.symm, Slots.update_update_of_none hfree1,
            Slots.update_update_of_none hfree0]
        simp [Fds.pipe, h4, hs1, hback, hn0, hn1]

theorem sysPipe_ofile_init :
    FtOk Ftable.init ∧ Ftable.init.life initproc = .live ∧
      (Ftable.init.sysPipe initproc true true).map (fun r => (r.1, r.2.ofile)) =
        some (match (Ftable.init.pipealloc true).bind Prod.fst with
          | some (rf, wf) =>
            match Fds.pipe true (Ftable.init.ofile initproc) rf wf with
            | some (_, _, t) => if true then (0, Function.update Ftable.init.ofile initproc t) else (-1, Ftable.init.ofile)
            | none => (-1, Ftable.init.ofile)
          | none => (-1, Ftable.init.ofile)) := by
  have hl : Ftable.init.life initproc = .live := by simp [Ftable.init]
  exact ⟨ftOk_init, hl, sysPipe_ofile ftOk_init hl true true⟩

end Calls

end Xv6Sched
