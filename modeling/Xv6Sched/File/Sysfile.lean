import Xv6Sched.Fs.Itable
import Xv6Sched.File.Ftable

/-!
# Xv6Sched.File.Sysfile — the file-system system calls of `kernel/sysfile.c`

The calls that take and give back inode references: `open` (through `create` or `namei`),
`link`, `unlink`, `mkdir`, `mknod`, `chdir`, the inode part of `exec`, and `fork` and `exit`
with their `cwd`; with them `dup`, `close` and `pipe`, which reach the inode table only through
`fileclose`.  `Kfs` is what they change: the file table (`Xv6Sched.File.Ftable`), the inode table
with the disk (`Xv6Sched.Fs.Itable`), and every process's `cwd`.

The file table's calls are used as they are.  `fileclose` gives the reference of the last close of
an `FD_INODE` or `FD_DEVICE` entry back with `iput(ff.ip)` at once; the file table records each
such reference in `iputs`, and `withFiles` hands the new ones to `iput` in that order.  Neither
table reads the other, so this is the order of the code.  In `open`, the reference `create` or
`namei` took passes to the new entry (`opened`) or is given back by `iunlockput`.

A call's arguments are as `argstr` and `argint` fetched them; a path is its bytes up to the
`NUL`.  `begin_op` and `end_op` are the log's (`Xv6Sched.Fs.LogSpace`).
-/

namespace Xv6Sched

/-- `O_RDONLY`, `O_CREATE` and `O_TRUNC` of `kernel/fcntl.h`. -/
def O_RDONLY : Int32 := 0

def O_CREATE : Int32 := 0x200

def O_TRUNC : Int32 := 0x400

namespace Itable

/-- The `T_DIR` branch of `create`: `dp->nlink++` for the new `..`, then the entries `.` and
`..` of `ip`, whose failure is the panic `create dots`.  `ballocOk` is whether the `balloc`s of the
call find free blocks. -/
def createDots (t : Itable) (dp ip : Fin NINODE) (ballocOk : Bool) : Option Itable := do
  let t := (t.setInode dp { t.inode dp with nlink := (t.inode dp).nlink + 1 }).iupdate dp
  let (r, t) ← t.dirlink ip ['.'] (t.inode ip).inum ballocOk
  if r < 0 then none
  else
    let (r, t) ← t.dirlink ip ['.', '.'] (t.inode dp).inum ballocOk
    if r < 0 then none else pure t

/-- `create` once `name` is not in the locked directory `dp`: a new inode from `ialloc`, locked,
with one link, entered in `dp`; `dp` is unlocked and put.  `none` is a panic (`create: ialloc`,
`create dots`, `create: dirlink`, or one below). -/
def createNew (t : Itable) (dp : Fin NINODE) (name : List Char) (type : Nat) (major minor : Int16)
    (ballocOk : Bool) : Option (Fin NINODE × Itable) := do
  let (ip, t) ← t.ialloc (t.inode dp).dev type
  let t ← t.ilock ip
  let t := (t.setInode ip { t.inode ip with major := major, minor := minor, nlink := 1 }).iupdate ip
  let t ← (if type = T_DIR then t.createDots dp ip ballocOk else pure t)
  let (r, t) ← t.dirlink dp name (t.inode ip).inum ballocOk
  if r < 0 then none
  else
    let t ← t.iunlockput dp
    pure (ip, t)

/-- `create(path, type, major, minor)`: the inode, locked, with a reference for the caller, or
`none` for `0`.  A name already in the directory is returned when a file is asked for and it is
a file or a device. -/
def create (t : Itable) (cwd : Option (Fin NINODE)) (path : List Char) (type : Nat)
    (major minor : Int16) (ballocOk : Bool) : Option (Option (Fin NINODE) × Itable) := do
  match ← t.nameiparent cwd path with
  | (none, t) => pure (none, t)
  | (some (dp, name), t) =>
    let t ← t.ilock dp
    match ← t.dirlookup dp name with
    | (some (_, ip), t) =>
      let t ← t.iunlockput dp
      let t ← t.ilock ip
      if type = T_FILE ∧ ((t.inode ip).type = T_FILE ∨ (t.inode ip).type = T_DEVICE) then
        pure (some ip, t)
      else
        let t ← t.iunlockput ip
        pure (none, t)
    | (none, t) =>
      let (ip, t) ← t.createNew dp name type major minor ballocOk
      pure (some ip, t)

/-- The `else` branch of `sys_open`: `namei` and `ilock`; a directory only for `O_RDONLY`. -/
def openi (t : Itable) (cwd : Option (Fin NINODE)) (path : List Char) (omode : Int32) :
    Option (Option (Fin NINODE) × Itable) := do
  match ← t.namei cwd path with
  | (none, t) => pure (none, t)
  | (some ip, t) =>
    let t ← t.ilock ip
    if (t.inode ip).type = T_DIR ∧ omode ≠ O_RDONLY then
      let t ← t.iunlockput ip
      pure (none, t)
    else pure (some ip, t)

/-- The `bad` path of `sys_link`: the link count taken back. -/
def linkBad (t : Itable) (ip : Fin NINODE) : Option Itable := do
  let t ← t.ilock ip
  let t := (t.setInode ip { t.inode ip with nlink := (t.inode ip).nlink - 1 }).iupdate ip
  t.iunlockput ip

/-- The middle of `sys_link`: `nameiparent(new)`, and the entry for `ip` in the parent unless
the parent is on another device; whether the link was made. -/
def linkInto (t : Itable) (cwd : Option (Fin NINODE)) (new : List Char) (ip : Fin NINODE)
    (ballocOk : Bool) : Option (Bool × Itable) := do
  match ← t.nameiparent cwd new with
  | (none, t) => pure (false, t)
  | (some (dp, name), t) =>
    let t ← t.ilock dp
    let (r, t) ← (if (t.inode dp).dev ≠ (t.inode ip).dev then pure (-1, t)
      else t.dirlink dp name (t.inode ip).inum ballocOk)
    let t ← t.iunlockput dp
    pure (decide (0 ≤ r), t)

/-- `sys_link(old, new)`: the link count goes up before the new entry is made, and back down on
the `bad` path. -/
def sysLink (t : Itable) (cwd : Option (Fin NINODE)) (old new : List Char) (ballocOk : Bool) :
    Option (Int × Itable) := do
  match ← t.namei cwd old with
  | (none, t) => pure (-1, t)
  | (some ip, t) =>
    let t ← t.ilock ip
    if (t.inode ip).type = T_DIR then
      let t ← t.iunlockput ip
      pure (-1, t)
    else
      let t := (t.setInode ip { t.inode ip with nlink := (t.inode ip).nlink + 1 }).iupdate ip
      let t ← t.iunlock ip
      match ← t.linkInto cwd new ip ballocOk with
      | (true, t) =>
        let t ← t.iput ip
        pure (0, t)
      | (false, t) =>
        let t ← t.linkBad ip
        pure (-1, t)

/-- The `bad` path of `sys_unlink`. -/
def unlinkBad (t : Itable) (dp : Fin NINODE) : Option (Int × Itable) :=
  (t.iunlockput dp).map fun t => (-1, t)

/-- The parent's side of unlinking a directory: its `..` named the parent, so
`dp->nlink--; iupdate(dp)`. -/
def unlinkParent (t : Itable) (dp ip : Fin NINODE) : Itable :=
  if (t.inode ip).type = T_DIR then
    (t.setInode dp { t.inode dp with nlink := (t.inode dp).nlink - 1 }).iupdate dp
  else t

/-- `sys_unlink(path)`: the entry zeroed, and the links of the inode, and of the parent for a
directory's `..`, counted down; `none` is a panic (`unlink: nlink < 1`, `unlink: writei`, …). -/
def sysUnlink (t : Itable) (cwd : Option (Fin NINODE)) (path : List Char) : Option (Int × Itable) := do
  match ← t.nameiparent cwd path with
  | (none, t) => pure (-1, t)
  | (some (dp, name), t) =>
    let t ← t.ilock dp
    -- cannot unlink `.` or `..`
    if namecmp name ['.'] = 0 ∨ namecmp name ['.', '.'] = 0 then t.unlinkBad dp
    else
      match ← t.dirlookup dp name with
      | (none, t) => t.unlinkBad dp
      | (some (off, ip), t) =>
        let t ← t.ilock ip
        if (t.inode ip).nlink < 1 then none
        else if (t.inode ip).type = T_DIR ∧ t.isdirempty ip = false then
          let t ← t.iunlockput ip
          t.unlinkBad dp
        else
          -- the entry lies in a block `dp` has, so `bmap` allocates nothing
          let t ← t.writeEnt dp (off / direntSize) ⟨0, []⟩ true
          let t := t.unlinkParent dp ip
          let t ← t.iunlockput dp
          let t := (t.setInode ip { t.inode ip with nlink := (t.inode ip).nlink - 1 }).iupdate ip
          let t ← t.iunlockput ip
          pure (0, t)

/-- The body `sys_mkdir` and `sys_mknod` share: `create`, then `iunlockput` of the inode it
made. -/
def createPut (t : Itable) (cwd : Option (Fin NINODE)) (path : List Char) (type : Nat)
    (major minor : Int16) (ballocOk : Bool) : Option (Int × Itable) := do
  match ← t.create cwd path type major minor ballocOk with
  | (none, t) => pure (-1, t)
  | (some ip, t) =>
    let t ← t.iunlockput ip
    pure (0, t)

/-- `sys_mkdir(path)`. -/
def sysMkdir (t : Itable) (cwd : Option (Fin NINODE)) (path : List Char) (ballocOk : Bool) :
    Option (Int × Itable) :=
  t.createPut cwd path T_DIR 0 0 ballocOk

/-- `sys_mknod(path, major, minor)`: the `int` arguments narrowed to `create`'s `short`s. -/
def sysMknod (t : Itable) (cwd : Option (Fin NINODE)) (path : List Char) (major minor : Int32)
    (ballocOk : Bool) : Option (Int × Itable) :=
  t.createPut cwd path T_DEVICE major.toInt16 minor.toInt16 ballocOk

/-- The inode table's part of `exec(path, argv)`: `namei`, `ilock`, and one `iunlockput` on
every path after them.  What is read from the file decides only the result. -/
def exec (t : Itable) (cwd : Option (Fin NINODE)) (path : List Char) : Option Itable := do
  match ← t.namei cwd path with
  | (none, t) => pure t
  | (some ip, t) =>
    let t ← t.ilock ip
    t.iunlockput ip

end Itable

/-- What the file-system system calls change: the open-file table, the inode table with the
disk, and every process's `cwd`. -/
structure Kfs where
  ft : Ftable
  it : Itable
  cwd : Fin NPROC → Option (Fin NINODE)

namespace Kfs

/-- The file table after one of its calls, with the `iput`s of that call's `fileclose`s. -/
def withFiles (s : Kfs) (ft : Ftable) : Option Kfs :=
  ((ft.iputs.drop s.ft.iputs.length).foldlM (fun (t : Itable) ip => t.iputAt ip) s.it).map fun it =>
    { s with ft := ft, it := it }

/-- `sys_open(path, omode)` by process `p`: the descriptor, or `-1`. -/
def sysOpen (s : Kfs) (p : Fin NPROC) (path : List Char) (omode : Int32) (ballocOk : Bool) :
    Option (Int × Kfs) := do
  let (r, it) ← (if omode &&& O_CREATE ≠ 0 then s.it.create (s.cwd p) path T_FILE 0 0 ballocOk
    else s.it.openi (s.cwd p) path omode)
  let s := { s with it := it }
  match r with
  | none => pure (-1, s)
  | some ip =>
    let x := s.it.inode ip
    if x.type = T_DEVICE ∧ (x.major.toInt < 0 ∨ x.major.toInt ≥ NDEV) then
      let it ← s.it.iunlockput ip
      pure (-1, { s with it := it })
    else
      let (fd, ft) ← s.ft.sysOpen p (some (ip.val, decide (x.type = T_DEVICE))) omode
      let s ← s.withFiles ft
      if fd < 0 then
        let it ← s.it.iunlockput ip
        pure (-1, { s with it := it })
      else
        let it := if omode &&& O_TRUNC ≠ 0 ∧ x.type = T_FILE then s.it.itrunc ip else s.it
        let it ← it.iunlock ip
        pure (fd, { s with it := it })

/-- `sys_chdir(path)` by process `p`: the new directory's reference passes to `p->cwd`, and the
old one is put. -/
def sysChdir (s : Kfs) (p : Fin NPROC) (path : List Char) : Option (Int × Kfs) := do
  match ← s.it.namei (s.cwd p) path with
  | (none, it) => pure (-1, { s with it := it })
  | (some ip, it) =>
    let it ← it.ilock ip
    if (it.inode ip).type ≠ T_DIR then
      let it ← it.iunlockput ip
      pure (-1, { s with it := it })
    else
      let it ← it.iunlock ip
      match s.cwd p with
      | none => none
      | some c =>
        let it ← it.iput c
        pure (0, { s with it := it, cwd := Function.update s.cwd p (some ip) })

/-- `fork()` by `p`: the file table's part, and `np->cwd = idup(p->cwd)` in the slot
`allocproc` took, once the copy succeeded. -/
def fork (s : Kfs) (p : Fin NPROC) (copyOk : Bool) : Option Kfs := do
  let ft ← s.ft.fork p copyOk
  let s' ← s.withFiles ft
  match Scan.firstFin (fun c => s.ft.life c == .unused), copyOk with
  | some np, true =>
    match s.cwd p with
    | none => none
    | some c => pure { s' with it := s'.it.idup c, cwd := Function.update s'.cwd np (some c) }
  | _, _ => pure s'

/-- `exit()` by `p`: the file table's part, then `iput(p->cwd)` and `p->cwd = 0`. -/
def exit (s : Kfs) (p : Fin NPROC) : Option Kfs := do
  let ft ← s.ft.exit p
  let s ← s.withFiles ft
  match s.cwd p with
  | none => none
  | some c =>
    let it ← s.it.iput c
    pure { s with it := it, cwd := Function.update s.cwd p none }

/-- A call that changes only the inode table, with its result dropped. -/
def onIt (s : Kfs) (c : Option (Int × Itable)) : Option Kfs := c.map fun (_, it) => { s with it := it }

/-- A call of the file table alone, with the `iput`s of its `fileclose`s. -/
def onFt (s : Kfs) (c : Option (Int × Ftable)) : Option Kfs := c.bind fun (_, ft) => s.withFiles ft

/-- The state `userinit` leaves: no open file, `initproc` the only process, and its `cwd` the
root, which `namei("/")` takes as entry `0` of the empty table (`namei_boot`). -/
def init (d : Nat → DiskInode) : Kfs where
  ft := Ftable.init
  it := (Itable.boot d).setInode ⟨0, NINODE_pos⟩ ⟨ROOTDEV, ROOTINO, 1, false, false, 0, 0, 0, 0⟩
  cwd := fun p => if p = initproc then some ⟨0, NINODE_pos⟩ else none

theorem namei_boot (d : Nat → DiskInode) :
    (Itable.boot d).namei none ['/'] = some (some ⟨0, by decide⟩, (init d).it) := by
  have hg : (Itable.boot d).iget ROOTDEV ROOTINO = some (⟨0, by decide⟩, (init d).it) := rfl
  have hs : Itable.skipelem ['/'] = none := rfl
  simp [Itable.namei, Itable.namex, hg, Itable.namexLoop_of_none hs]

end Kfs

/-- A system call of a process, or `wait` freeing a zombie child (`reap`).  `ballocOk` is whether
the `balloc`s of a call that writes a directory entry find free blocks. -/
inductive FsCall
  | sysOpen (p : Fin NPROC) (path : List Char) (omode : Int32) (ballocOk : Bool)
  | sysDup (p : Fin NPROC) (fd : Int)
  | sysClose (p : Fin NPROC) (fd : Int)
  | sysPipe (p : Fin NPROC) (kallocOk copyoutOk : Bool)
  | sysLink (p : Fin NPROC) (old new : List Char) (ballocOk : Bool)
  | sysUnlink (p : Fin NPROC) (path : List Char)
  | sysMkdir (p : Fin NPROC) (path : List Char) (ballocOk : Bool)
  | sysMknod (p : Fin NPROC) (path : List Char) (major minor : Int32) (ballocOk : Bool)
  | sysChdir (p : Fin NPROC) (path : List Char)
  | exec (p : Fin NPROC) (path : List Char)
  | fork (p : Fin NPROC) (copyOk : Bool)
  | exit (p : Fin NPROC)
  | reap (p : Fin NPROC)

/-- The process a call is made by; a `reap` is made on the child. -/
def FsCall.proc : FsCall → Fin NPROC
  | .sysOpen p .. | .sysDup p .. | .sysClose p .. | .sysPipe p .. | .sysLink p .. | .sysUnlink p ..
  | .sysMkdir p .. | .sysMknod p .. | .sysChdir p .. | .exec p .. | .fork p .. | .exit p
  | .reap p => p

/-- One call; `none` is a call by a process that is not live, a `reap` of a process that is not
a zombie, or a panic. -/
def kfsStep (s : Kfs) : FsCall → Option Kfs
  | .reap p =>
    if s.ft.life p = .zombie then some { s with ft := { s.ft with life := Function.update s.ft.life p .unused } }
    else none
  | c =>
    if s.ft.life c.proc ≠ .live then none
    else
      let cwd := s.cwd c.proc
      match c with
      | .sysOpen p path omode b => (s.sysOpen p path omode b).map Prod.snd
      | .sysDup p fd => s.onFt (s.ft.sysDup p fd)
      | .sysClose p fd => s.onFt (s.ft.sysClose p fd)
      | .sysPipe p k c => s.onFt (s.ft.sysPipe p k c)
      | .sysLink _ old new b => s.onIt (s.it.sysLink cwd old new b)
      | .sysUnlink _ path => s.onIt (s.it.sysUnlink cwd path)
      | .sysMkdir _ path b => s.onIt (s.it.sysMkdir cwd path b)
      | .sysMknod _ path major minor b => s.onIt (s.it.sysMknod cwd path major minor b)
      | .sysChdir p path => (s.sysChdir p path).map Prod.snd
      | .exec _ path => (s.it.exec cwd path).map fun it => { s with it := it }
      | .fork p copyOk => s.fork p copyOk
      | .exit p => if p = initproc then none else s.exit p
      | .reap _ => none

/-- States reached from boot over the disk `d` by any sequence of calls. -/
def KfsReachable (d : Nat → DiskInode) : Kfs → Prop := LTS.Reachable kfsStep (Kfs.init d)

end Xv6Sched
