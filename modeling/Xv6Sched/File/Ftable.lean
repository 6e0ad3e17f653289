import Mathlib.Data.Fintype.Prod
import Xv6Sched.Lib.Lts
import Xv6Sched.Lib.Scan
import Xv6Sched.File.Pipe
import Xv6Sched.Proc.Defs

/-!
# Xv6Sched.File.Ftable — the open-file table of `kernel/file.c` and its system calls

`ftable` holds `NFILE` entries, each counted by `ref`; a process's descriptors `p->ofile[fd]`
point into it.  `filealloc`, `filedup` and `fileclose` keep the counts; `pipealloc` makes the
two ends of a pipe and `pipeclose` closes one, freeing the pipe's page when both are closed.
The system calls `open`, `dup`, `close` and `pipe`, with all their error paths, and the file
part of `fork` and `exit` are written from these as the code has them.

A pipe is named by its allocation: `pipes n` is the `n`-th pipe `pipealloc` made, until its
page is freed, since `kalloc` may hand the same page out again and what the code must free
once is each allocation.  The inodes are the inode table's (`ip` is an `itable` entry); the
table only passes on references to them.  `kfreed`, `opened` and `iputs` record what the code
does with pages and inodes: the pipes `kfree`d in order, the inode references `sys_open` put
into a file, and those `fileclose` gave back with `iput`.  A process slot is `unused`, `live`
(from `allocproc` to `exit`) or a `zombie`; only a live process makes system calls.
-/

namespace Xv6Sched

/-- `NOFILE`: open files per process. -/
def NOFILE : Nat := 16

/-- `NFILE`: open files per system. -/
def NFILE : Nat := 100

/-- `f->type`. -/
inductive FdType
  | none
  | pipe
  | inode
  | device
  deriving DecidableEq, Repr

/-- The fields of `struct file` that the table reads and writes; `off` and `major` are read
only by `fileread` and `filewrite`.  `ref` is an `int`: it never leaves `0 ..= NPROC * NOFILE`
(`FtOk.ref_le`). -/
structure File where
  type : FdType
  ref : Nat
  readable : Bool
  writable : Bool
  pipe : Nat
  ip : Nat

/-- A process slot, as far as its descriptors go. -/
inductive Life
  | unused
  | live
  | zombie
  deriving DecidableEq, Repr

/-- The file table, every process's descriptors, and the pipes by allocation. -/
structure Ftable where
  file : Fin NFILE → File
  ofile : Fin NPROC → Fin NOFILE → Option (Fin NFILE)
  life : Fin NPROC → Life
  pipes : Nat → Option Pipe
  npipes : Nat
  kfreed : List Nat
  opened : List Nat
  iputs : List Nat

namespace Ftable

/-- `*f = x` for entry `f`. -/
def setFile (s : Ftable) (f : Fin NFILE) (x : File) : Ftable :=
  { s with file := Function.update s.file f x }

/-- `p->ofile[fd] = v`. -/
def setOfile (s : Ftable) (p : Fin NPROC) (fd : Fin NOFILE) (v : Option (Fin NFILE)) : Ftable :=
  { s with ofile := Function.update s.ofile p (Function.update (s.ofile p) fd v) }

section Fields

variable (s : Ftable) (f : Fin NFILE) (x : File) (p : Fin NPROC) (fd : Fin NOFILE) (v : Option (Fin NFILE))

@[simp] theorem setFile_file : (s.setFile f x).file = Function.update s.file f x := rfl
@[simp] theorem setFile_ofile : (s.setFile f x).ofile = s.ofile := rfl
@[simp] theorem setFile_life : (s.setFile f x).life = s.life := rfl
@[simp] theorem setFile_pipes : (s.setFile f x).pipes = s.pipes := rfl
@[simp] theorem setFile_npipes : (s.setFile f x).npipes = s.npipes := rfl
@[simp] theorem setFile_kfreed : (s.setFile f x).kfreed = s.kfreed := rfl
@[simp] theorem setFile_opened : (s.setFile f x).opened = s.opened := rfl
@[simp] theorem setFile_iputs : (s.setFile f x).iputs = s.iputs := rfl

@[simp] theorem setOfile_file : (s.setOfile p fd v).file = s.file := rfl
@[simp] theorem setOfile_ofile :
    (s.setOfile p fd v).ofile = Function.update s.ofile p (Function.update (s.ofile p) fd v) := rfl
@[simp] theorem setOfile_life : (s.setOfile p fd v).life = s.life := rfl
@[simp] theorem setOfile_pipes : (s.setOfile p fd v).pipes = s.pipes := rfl
@[simp] theorem setOfile_npipes : (s.setOfile p fd v).npipes = s.npipes := rfl
@[simp] theorem setOfile_kfreed : (s.setOfile p fd v).kfreed = s.kfreed := rfl
@[simp] theorem setOfile_opened : (s.setOfile p fd v).opened = s.opened := rfl
@[simp] theorem setOfile_iputs : (s.setOfile p fd v).iputs = s.iputs := rfl

end Fields

/-- `filealloc()`: the first entry with `ref == 0`, now with `ref = 1`; `none` is `0`. -/
def filealloc (s : Ftable) : Option (Fin NFILE × Ftable) :=
  (Scan.firstFin fun f => (s.file f).ref == 0).map fun f => (f, s.setFile f { s.file f with ref := 1 })

/-- `filedup(f)`; `none` is the panic. -/
def filedup (s : Ftable) (f : Fin NFILE) : Option Ftable :=
  if (s.file f).ref < 1 then none
  else some (s.setFile f { s.file f with ref := (s.file f).ref + 1 })

/-- `pipeclose(pi, writable)` on the `pi`-th pipe, with the `kfree` of its page once both ends
are closed; `none` is a pipe whose page is already freed. -/
def pipeclose (s : Ftable) (pi : Nat) (writable : Bool) : Option Ftable :=
  (s.pipes pi).map fun p =>
    let p := Xv6Sched.pipeclose p writable
    if !p.readopen && !p.writeopen then
      { s with pipes := Function.update s.pipes pi none, kfreed := s.kfreed ++ [pi] }
    else { s with pipes := Function.update s.pipes pi (some p) }

/-- `fileclose(f)`; `none` is the panic, or a pipe end whose pipe is already freed.  The
`begin_op` and `end_op` around the `iput` are the log's. -/
def fileclose (s : Ftable) (f : Fin NFILE) : Option Ftable :=
  let ff := s.file f
  if ff.ref < 1 then none
  else if ff.ref - 1 > 0 then some (s.setFile f { ff with ref := ff.ref - 1 })
  else
    let s := s.setFile f { ff with ref := 0, type := .none }
    match ff.type with
    | .pipe => s.pipeclose ff.pipe ff.writable
    | .inode | .device => some { s with iputs := s.iputs ++ [ff.ip] }
    | .none => some s

/-- `fdalloc(f)` in process `p`: the lowest free descriptor, now `f`; `none` is `-1`. -/
def fdalloc (s : Ftable) (p : Fin NPROC) (f : Fin NFILE) : Option (Fin NOFILE × Ftable) :=
  (Scan.firstFin fun fd => (s.ofile p fd).isNone).map fun fd => (fd, s.setOfile p fd (some f))

/-- `argfd` for the argument `fd` of process `p`: the descriptor and its file; `none` is `-1`. -/
def argfd (s : Ftable) (p : Fin NPROC) (fd : Int) : Option (Fin NOFILE × Fin NFILE) :=
  if h : 0 ≤ fd ∧ fd < NOFILE then
    (s.ofile p ⟨fd.toNat, by omega⟩).map fun f => (⟨fd.toNat, by omega⟩, f)
  else none

/-- `sys_dup(fd)`: the new descriptor, or `-1`. -/
def sysDup (s : Ftable) (p : Fin NPROC) (fd : Int) : Option (Int × Ftable) :=
  match s.argfd p fd with
  | none => some (-1, s)
  | some (_, f) =>
    match s.fdalloc p f with
    | none => some (-1, s)
    | some (fd, s) => (s.filedup f).map fun s => ((fd : Nat), s)

/-- `sys_close(fd)`. -/
def sysClose (s : Ftable) (p : Fin NPROC) (fd : Int) : Option (Int × Ftable) :=
  match s.argfd p fd with
  | none => some (-1, s)
  | some (fd, f) => ((s.setOfile p fd none).fileclose f).map fun s => (0, s)

/-- `O_WRONLY` and `O_RDWR` of `kernel/fcntl.h`. -/
def O_WRONLY : Int32 := 1

def O_RDWR : Int32 := 2

/-- `sys_open(path, omode)` once `create` or `namei` gave the inode `ip` (`dev`: of type
`T_DEVICE`): the descriptor, or `-1`.  `none` for the inode stands for each failure before
`filealloc` (no such path, a directory opened for writing, a bad major), which returns `-1`
with the table untouched.  `O_TRUNC`'s `itrunc`, `f->off` and `f->major` are the inode's. -/
def sysOpen (s : Ftable) (p : Fin NPROC) (ip : Option (Nat × Bool)) (omode : Int32) :
    Option (Int × Ftable) :=
  match ip with
  | none => some (-1, s)
  | some (ip, dev) =>
    match s.filealloc with
    | none => some (-1, s)
    | some (f, s) =>
      match s.fdalloc p f with
      -- `fileclose(f)` of the entry just allocated; `iunlockput(ip)` drops the inode
      | none => (s.fileclose f).map fun s => (-1, s)
      | some (fd, s) =>
        let x : File := { s.file f with
          type := if dev then .device else .inode, ip := ip,
          readable := omode &&& O_WRONLY == 0,
          writable := omode &&& O_WRONLY != 0 || omode &&& O_RDWR != 0 }
        some ((fd : Nat), { s.setFile f x with opened := s.opened ++ [ip] })

/-- `if(*f) fileclose(*f)` on the `bad` path of `pipealloc`. -/
def closeIf (s : Ftable) : Option (Fin NFILE) → Option Ftable
  | none => some s
  | some f => s.fileclose f

/-- The `bad` path of `pipealloc`: `pi` is still `0` there, since `kalloc` is the last step
that can fail, so only the entries taken are closed. -/
def pipeallocBad (s : Ftable) (f0 f1 : Option (Fin NFILE)) :
    Option (Option (Fin NFILE × Fin NFILE) × Ftable) := do
  let s ← s.closeIf f0
  let s ← s.closeIf f1
  pure (none, s)

/-- The success path of `pipealloc`: the `npipes`-th pipe on a fresh page, which `kalloc` fills
with `5`s, with `f0` its read end and `f1` its write end. -/
def openPipe (s : Ftable) (f0 f1 : Fin NFILE) : Ftable :=
  let pi := s.npipes
  let page : Fin PIPESIZE → UInt8 := fun _ => 5
  let s := { s with pipes := Function.update s.pipes pi (some (Xv6Sched.pipealloc page)), npipes := pi + 1 }
  let s := s.setFile f0 { s.file f0 with type := .pipe, readable := true, writable := false, pipe := pi }
  s.setFile f1 { s.file f1 with type := .pipe, readable := false, writable := true, pipe := pi }

/-- `pipealloc(&rf, &wf)`: the read and write ends, or `none` for `-1`; the outer `none` is a
panic in `fileclose`.  `kallocOk` says whether `kalloc` finds a page. -/
def pipealloc (s : Ftable) (kallocOk : Bool) : Option (Option (Fin NFILE × Fin NFILE) × Ftable) :=
  match s.filealloc with
  | none => s.pipeallocBad none none
  | some (f0, s) =>
    match s.filealloc with
    | none => s.pipeallocBad (some f0) none
    | some (f1, s) =>
      if !kallocOk then s.pipeallocBad (some f0) (some f1)
      else some (some (f0, f1), s.openPipe f0 f1)

/-- The error paths of `sys_pipe` after `pipealloc`: both ends closed. -/
def pipeFail (s : Ftable) (rf wf : Fin NFILE) : Option (Int × Ftable) := do
  let s ← s.fileclose rf
  let s ← s.fileclose wf
  pure (-1, s)

/-- `sys_pipe(fdarray)`: `0`, or `-1`; `copyoutOk` says whether both `copyout`s of the
descriptors succeed. -/
def sysPipe (s : Ftable) (p : Fin NPROC) (kallocOk copyoutOk : Bool) : Option (Int × Ftable) :=
  match s.pipealloc kallocOk with
  | none => none
  | some (none, s) => some (-1, s)
  | some (some (rf, wf), s) =>
    match s.fdalloc p rf with
    | none => s.pipeFail rf wf
    | some (fd0, s) =>
      match s.fdalloc p wf with
      | none => (s.setOfile p fd0 none).pipeFail rf wf
      | some (fd1, s) =>
        if copyoutOk then some (0, s)
        else ((s.setOfile p fd0 none).setOfile p fd1 none).pipeFail rf wf

/-- One pass of the loop of `fork`: descriptor `i` of `p` duplicated into `np`. -/
def forkFd (p np : Fin NPROC) (s : Ftable) (i : Fin NOFILE) : Option Ftable :=
  match s.ofile p i with
  | none => some s
  | some f => (s.filedup f).map fun s => s.setOfile np i (some f)

/-- The files of `fork()` by `p`: `allocproc` takes the first `UNUSED` slot; `copyOk` is the
success of the rest of `allocproc` and of `uvmcopy`, on whose failure `freeproc` gives the
slot back. -/
def fork (s : Ftable) (p : Fin NPROC) (copyOk : Bool) : Option Ftable :=
  match Scan.firstFin fun c => s.life c == .unused with
  | none => some s
  | some np =>
    if copyOk then
      (List.finRange NOFILE).foldlM (forkFd p np) { s with life := Function.update s.life np .live }
    else some s

/-- One pass of the loop of `exit`: descriptor `fd` of `p` closed. -/
def exitFd (p : Fin NPROC) (s : Ftable) (fd : Fin NOFILE) : Option Ftable :=
  match s.ofile p fd with
  | none => some s
  | some f => (s.fileclose f).map fun s => s.setOfile p fd none

/-- The files of `exit()` by `p`: `initproc` panics; any other process closes every descriptor
and becomes a `ZOMBIE`.  The `iput` of its `cwd` is the inode table's. -/
def exit (s : Ftable) (p : Fin NPROC) : Option Ftable :=
  if p = initproc then none
  else ((List.finRange NOFILE).foldlM (exitFd p) s).map fun s =>
    { s with life := Function.update s.life p .zombie }

/-- The table at boot: every entry zero, no descriptor, `initproc` the only process. -/
def init : Ftable :=
  ⟨fun _ => ⟨.none, 0, false, false, 0, 0⟩, fun _ _ => none,
    fun p => if p = initproc then .live else .unused, fun _ => none, 0, [], [], []⟩

/-! ### What each function does -/

variable {s s' : Ftable} {p : Fin NPROC} {f : Fin NFILE} {fd : Fin NOFILE}

theorem filealloc_eq_some (h : s.filealloc = some (f, s')) :
    (s.file f).ref = 0 ∧ s' = s.setFile f { s.file f with ref := 1 } := by
  unfold filealloc at h
  cases hf : Scan.firstFin fun f => (s.file f).ref == 0 with
  | none => rw [hf] at h; cases h
  | some g =>
    rw [hf] at h
    obtain ⟨rfl, rfl⟩ := Prod.mk.inj (Option.some.inj h)
    exact ⟨by simpa using Scan.firstFin_spec hf, rfl⟩

theorem fdalloc_eq_some (h : s.fdalloc p f = some (fd, s')) :
    s.ofile p fd = none ∧ s' = s.setOfile p fd (some f) := by
  unfold fdalloc at h
  cases hf : Scan.firstFin fun fd => (s.ofile p fd).isNone with
  | none => rw [hf] at h; cases h
  | some g =>
    rw [hf] at h
    obtain ⟨rfl, rfl⟩ := Prod.mk.inj (Option.some.inj h)
    exact ⟨by simpa using Scan.firstFin_spec hf, rfl⟩

theorem argfd_eq_some {n : Int} (h : s.argfd p n = some (fd, f)) : s.ofile p fd = some f := by
  unfold argfd at h
  split at h
  · cases hf : s.ofile p ⟨n.toNat, by omega⟩ with
    | none => rw [hf] at h; cases h
    | some g =>
      rw [hf] at h
      obtain ⟨rfl, rfl⟩ := Prod.mk.inj (Option.some.inj h)
      exact hf
  · cases h

/-- Entries and descriptors are separate fields: writing one commutes with writing the other. -/
theorem setFile_setOfile (x : File) (v : Option (Fin NFILE)) :
    (s.setOfile p fd v).setFile f x = (s.setFile f x).setOfile p fd v := rfl

theorem filedup_of_pos (h : 0 < (s.file f).ref) :
    s.filedup f = some (s.setFile f { s.file f with ref := (s.file f).ref + 1 }) := by
  unfold filedup
  rw [if_neg (by omega)]

/-- `fileclose` leaves the descriptors and the processes as they are. -/
theorem fileclose_frame (h : s.fileclose f = some s') : s'.ofile = s.ofile ∧ s'.life = s.life := by
  unfold fileclose at h
  dsimp only at h
  -- the panic branch closes itself
  split_ifs at h
  · cases h
    exact ⟨rfl, rfl⟩
  · cases ht : (s.file f).type <;> rw [ht] at h
    · cases h
      exact ⟨rfl, rfl⟩
    · unfold pipeclose at h
      cases hp : (s.setFile f { s.file f with ref := 0, type := .none }).pipes (s.file f).pipe with
      | none => rw [hp] at h; cases h
      | some q =>
        rw [hp] at h
        cases h
        dsimp only
        split_ifs <;> exact ⟨rfl, rfl⟩
    · cases h
      exact ⟨rfl, rfl⟩
    · cases h
      exact ⟨rfl, rfl⟩

/-- `pipeclose` touches the pipes and `kfreed` only. -/
theorem pipeclose_frame {pi : Nat} {w : Bool} (h : s.pipeclose pi w = some s') :
    s'.file = s.file ∧ s'.ofile = s.ofile ∧ s'.life = s.life ∧ s'.npipes = s.npipes ∧
      s'.opened = s.opened ∧ s'.iputs = s.iputs := by
  unfold pipeclose at h
  cases hp : s.pipes pi with
  | none => rw [hp] at h; cases h
  | some q =>
    rw [hp] at h
    obtain rfl := Option.some.inj h
    dsimp only
    split_ifs <;> exact ⟨rfl, rfl, rfl, rfl, rfl, rfl⟩

theorem pipeclose_setOfile {pi : Nat} {w : Bool} (v : Option (Fin NFILE)) :
    (s.setOfile p fd v).pipeclose pi w = (s.pipeclose pi w).map (·.setOfile p fd v) := by
  unfold pipeclose
  rw [setOfile_pipes]
  cases s.pipes pi with
  | none => rfl
  | some q =>
    simp only [Option.map_some]
    split_ifs <;> rfl

/-- `fileclose` does not read the descriptors, so closing a file and clearing a descriptor
commute: the order of `exit` is the order of `sys_close`. -/
theorem fileclose_setOfile (v : Option (Fin NFILE)) :
    (s.setOfile p fd v).fileclose f = (s.fileclose f).map (·.setOfile p fd v) := by
  unfold fileclose
  dsimp only [setOfile_file, setFile_setOfile]
  split_ifs
  · rfl
  · rfl
  · cases (s.file f).type with
    | pipe => exact pipeclose_setOfile v
    | inode => rfl
    | device => rfl
    | none => rfl

end Ftable

/-- A system call of a process, or `wait` freeing a zombie child (`reap`).  `exec` leaves
`ofile` as it is, on success and on failure. -/
inductive FileOp
  | sysOpen (p : Fin NPROC) (ip : Option (Nat × Bool)) (omode : Int32)
  | sysDup (p : Fin NPROC) (fd : Int)
  | sysClose (p : Fin NPROC) (fd : Int)
  | sysPipe (p : Fin NPROC) (kallocOk copyoutOk : Bool)
  | fork (p : Fin NPROC) (copyOk : Bool)
  | exit (p : Fin NPROC)
  | exec (p : Fin NPROC)
  | reap (p : Fin NPROC)

/-- One step; `none` is a call by a process that is not live, a `reap` of a process that is
not a zombie, or a panic. -/
def fileStep (s : Ftable) : FileOp → Option Ftable
  | .sysOpen p ip omode => if s.life p = .live then (s.sysOpen p ip omode).map Prod.snd else none
  | .sysDup p fd => if s.life p = .live then (s.sysDup p fd).map Prod.snd else none
  | .sysClose p fd => if s.life p = .live then (s.sysClose p fd).map Prod.snd else none
  | .sysPipe p k c => if s.life p = .live then (s.sysPipe p k c).map Prod.snd else none
  | .fork p copyOk => if s.life p = .live then s.fork p copyOk else none
  | .exit p => if s.life p = .live then s.exit p else none
  | .exec p => if s.life p = .live then some s else none
  | .reap p => if s.life p = .zombie then some { s with life := Function.update s.life p .unused } else none

/-- States reached from boot by any sequence of calls. -/
def FileReachable : Ftable → Prop := LTS.Reachable fileStep Ftable.init

end Xv6Sched
