import Xv6Sched.Fs.Mkfs
import Xv6Sched.Lib.Scan

/-!
# Xv6Sched.Fs.Itable — the inode table of `kernel/fs.c` and the functions on it

`itable` holds `NINODE` in-memory inodes.  An entry with `ref > 0` is the in-memory inode
`(dev, inum)`; `iget` finds it or recycles a free entry for it, `idup` and `iput` count the
references, and `ilock`/`iunlock` take and give back its sleep-lock, `ilock` reading the on-disk
inode into the entry when it is not `valid`.  On top of these, `dirlookup` and `dirlink` read and
write directory entries, and `namex` resolves a path one element (`skipelem`) at a time.

The disk is seen as the inode layer sees it (`DiskInode`): each on-disk inode's fields that
`iupdate` copies, and a directory's content as its `struct dirent`s, `16` bytes each, so that
`size` is `16` times their number.  Where those bytes lie in blocks is the block layer's
(`Xv6Sched.Fs.Blocks`): a write of an entry is `writei` of its `16` bytes, refused past `MAXFILE`
blocks, and one that starts a new block panics in `balloc` when the bitmap has no free block,
which the caller says with `ballocOk`.  All inodes are on `ROOTDEV`; the disk driver reads a
block whatever `dev` it is given, so the disk is indexed by `inum` alone.

A system call runs alone: an `acquiresleep` of a lock that is held can only wait for the calling
system call itself, which never happens, so it is `none` here like a panic.  `none` is a panic
everywhere else.
-/

namespace Xv6Sched

/-- `NINODE`: maximum number of active inodes. -/
def NINODE : Nat := 50

theorem NINODE_pos : 0 < NINODE := by decide

/-- `ROOTDEV`: the device of the root file system. -/
def ROOTDEV : Nat := 1

/-- `T_DEVICE`. -/
def T_DEVICE : Nat := 3

/-- `NDEV`: the device numbers `devsw` has room for. -/
def NDEV : Nat := 10

/-- An on-disk inode as the inode layer reads and writes it: the fields `iupdate` copies, and the
content read as directory entries (only a directory's content is ever read so). -/
structure DiskInode where
  type : Nat
  major : Int16
  minor : Int16
  nlink : Int16
  ents : List Dirent

/-- `memset(dip, 0, sizeof(*dip))`: type `0`, no content. -/
def DiskInode.zero : DiskInode := ⟨0, 0, 0, 0, []⟩

/-- `struct inode`: the table's `dev`, `inum` and `ref`, whether its sleep-lock is held, and the
copy of the on-disk inode that `ilock` reads when `valid` is `0`.  `ref` is an `int`: each `iput`
gives back a reference its caller holds, so it is never taken below `0`. -/
structure Inode where
  dev : Nat
  inum : Nat
  ref : Nat
  locked : Bool
  valid : Bool
  type : Nat
  major : Int16
  minor : Int16
  nlink : Int16

/-- The inode table and the on-disk inodes of `ROOTDEV`, by number. -/
structure Itable where
  inode : Fin NINODE → Inode
  disk : Nat → DiskInode

namespace Itable

/-- A write of entry `i`. -/
def setInode (t : Itable) (i : Fin NINODE) (ip : Inode) : Itable :=
  { t with inode := Function.update t.inode i ip }

/-- A write of on-disk inode `inum`. -/
def setDisk (t : Itable) (inum : Nat) (d : DiskInode) : Itable :=
  { t with disk := Function.update t.disk inum d }

section Fields

variable (t : Itable) (i : Fin NINODE) (ip : Inode) (inum : Nat) (d : DiskInode)

@[simp] theorem setInode_inode : (t.setInode i ip).inode = Function.update t.inode i ip := rfl
@[simp] theorem setInode_disk : (t.setInode i ip).disk = t.disk := rfl
@[simp] theorem setDisk_inode : (t.setDisk inum d).inode = t.inode := rfl
@[simp] theorem setDisk_disk : (t.setDisk inum d).disk = Function.update t.disk inum d := rfl

end Fields

/-- `iget(dev, inum)`: the entry that is inode `(dev, inum)`, with one reference more, or else
the first free entry, recycled for it; `none` is `iget: no inodes`.  The code's single loop
returns at the first entry that is the inode, and `empty` is the first free entry: the same
entries as these two scans. -/
def iget (t : Itable) (dev inum : Nat) : Option (Fin NINODE × Itable) :=
  match Scan.firstFin fun i => 0 < (t.inode i).ref && (t.inode i).dev == dev && (t.inode i).inum == inum with
  | some i => some (i, t.setInode i { t.inode i with ref := (t.inode i).ref + 1 })
  | none =>
    (Scan.firstFin fun i => (t.inode i).ref == 0).map fun i =>
      (i, t.setInode i { t.inode i with dev := dev, inum := inum, ref := 1, valid := false })

/-- `idup(ip)`. -/
def idup (t : Itable) (i : Fin NINODE) : Itable :=
  t.setInode i { t.inode i with ref := (t.inode i).ref + 1 }

/-- `ilock(ip)`: the sleep-lock, and the on-disk inode read into the entry when it is not
`valid`; `none` is `ilock`, `ilock: no type`, or a lock already held. -/
def ilock (t : Itable) (i : Fin NINODE) : Option Itable :=
  let ip := t.inode i
  if ip.ref < 1 then none
  else if ip.locked then none
  else if ip.valid then some (t.setInode i { ip with locked := true })
  else
    let d := t.disk ip.inum
    if d.type = 0 then none
    else some (t.setInode i { ip with
      locked := true, valid := true, type := d.type, major := d.major, minor := d.minor
      nlink := d.nlink })

/-- `iunlock(ip)`; `none` is the panic `iunlock`. -/
def iunlock (t : Itable) (i : Fin NINODE) : Option Itable :=
  let ip := t.inode i
  if !ip.locked || ip.ref < 1 then none else some (t.setInode i { ip with locked := false })

/-- `iupdate(ip)`: the entry's copy written to its on-disk inode. -/
def iupdate (t : Itable) (i : Fin NINODE) : Itable :=
  let ip := t.inode i
  t.setDisk ip.inum { t.disk ip.inum with
    type := ip.type, major := ip.major, minor := ip.minor, nlink := ip.nlink }

/-- `itrunc(ip)`: the content freed, `size = 0`, and `iupdate`. -/
def itrunc (t : Itable) (i : Fin NINODE) : Itable :=
  let inum := (t.inode i).inum
  (t.setDisk inum { t.disk inum with ents := [] }).iupdate i

@[simp] theorem iupdate_inode (t : Itable) (i : Fin NINODE) : (t.iupdate i).inode = t.inode := rfl

@[simp] theorem itrunc_inode (t : Itable) (i : Fin NINODE) : (t.itrunc i).inode = t.inode := rfl

/-- `iput(ip)`: one reference less; the last reference to a `valid` inode with no links first
truncates and frees it on disk (`acquiresleep` of its lock, which only a caller still holding it
could hold). -/
def iput (t : Itable) (i : Fin NINODE) : Option Itable :=
  let ip := t.inode i
  if ip.ref == 1 && ip.valid && ip.nlink == 0 then
    if ip.locked then none
    else
      let t := t.itrunc i
      let t := (t.setInode i { t.inode i with type := 0 }).iupdate i
      some (t.setInode i { t.inode i with valid := false, ref := (t.inode i).ref - 1 })
  else some (t.setInode i { ip with ref := ip.ref - 1 })

/-- `iunlockput(ip)`. -/
def iunlockput (t : Itable) (i : Fin NINODE) : Option Itable :=
  (t.iunlock i).bind fun t => t.iput i

/-- `iput` of an inode pointer held as a number: an entry of the table, or no inode at all. -/
def iputAt (t : Itable) (ip : Nat) : Option Itable :=
  if h : ip < NINODE then t.iput ⟨ip, h⟩ else none

/-- `ialloc(dev, type)`: the first on-disk inode from `1` with type `0`, zeroed and given
`type`, and an entry for it from `iget`; `none` is `ialloc: no inodes`.  The superblock's
`ninodes` is `NINODES`, as `mkfs` writes it. -/
def ialloc (t : Itable) (dev type : Nat) : Option (Fin NINODE × Itable) :=
  match (List.range' 1 (NINODES - 1)).find? fun inum => (t.disk inum).type == 0 with
  | none => none
  | some inum => (t.setDisk inum { DiskInode.zero with type := type }).iget dev inum

/-! ### Directories -/

/-- `strncmp(p, q, n)` of `kernel/string.c`, each string ending where its list does. -/
def strncmp : List Char → List Char → Nat → Int
  | _, _, 0 => 0
  | p :: ps, q :: qs, n + 1 => if p = q then strncmp ps qs n else (p.toNat : Int) - q.toNat
  | [], q :: _, _ + 1 => -(q.toNat : Int)
  | p :: _, [], _ + 1 => p.toNat
  | [], [], _ + 1 => 0

/-- `namecmp(s, t)`. -/
def namecmp (s t : List Char) : Int := strncmp s t DIRSIZ

/-- The loop of `dirlookup`: the offset and inode number of the first used entry whose name
matches. -/
def findEnt (name : List Char) : List Dirent → Nat → Option (Nat × Nat)
  | [], _ => none
  | de :: ents, off =>
    if de.inum ≠ 0 ∧ namecmp name de.name = 0 then some (off, de.inum.toNat)
    else findEnt name ents (off + direntSize)

/-- The entries of the directory entry `dp` is. -/
def ents (t : Itable) (dp : Fin NINODE) : List Dirent := (t.disk (t.inode dp).inum).ents

/-- `dirlookup(dp, name, poff)`: the entry's offset and a reference from `iget` to the inode it
names, or `none` for `0`.  The outer `none` is a panic: `dirlookup not DIR`, or `iget`'s.  The
reads never come up short (`dirlookup read`): `size` is a whole number of entries. -/
def dirlookup (t : Itable) (dp : Fin NINODE) (name : List Char) :
    Option (Option (Nat × Fin NINODE) × Itable) :=
  if (t.inode dp).type ≠ T_DIR then none
  else
    match findEnt name (t.ents dp) 0 with
    | none => some (none, t)
    | some (off, inum) => (t.iget (t.inode dp).dev inum).map fun (ip, t) => (some (off, ip), t)

/-- The loop of `dirlink` looking for a free entry: its index, or the number of entries when
there is none. -/
def freeSlot : List Dirent → Nat
  | [] => 0
  | de :: ents => if de.inum = 0 then 0 else freeSlot ents + 1

/-- An entry at slot `k` that starts a block past the directory's last one: `bmap` of its block
finds no address and takes one from `balloc`. -/
def NewBlock (ents : List Dirent) (k : Nat) : Prop := ents.length ≤ k ∧ k * direntSize % BSIZE = 0

instance (ents : List Dirent) (k : Nat) : Decidable (NewBlock ents k) :=
  inferInstanceAs (Decidable (_ ∧ _))

/-- `writei(dp, 0, &de, off, sizeof(de))` at entry `k = off / 16`, `k` at most the number of
entries: the entry replaced, or added at the end; `writei` returns `-1` past `MAXFILE` blocks,
which the callers take as a panic (`none`).  An entry that starts a new block is written through
`bmap`, whose `balloc` panics (`balloc: out of blocks`) when the bitmap has no free block:
`ballocOk` is whether the `balloc`s of this write find one, which the bitmap this layer does not
see decides.  `writei` ends with `iupdate`. -/
def writeEnt (t : Itable) (dp : Fin NINODE) (k : Nat) (de : Dirent) (ballocOk : Bool) : Option Itable :=
  let inum := (t.inode dp).inum
  let ents := t.ents dp
  if k * direntSize + direntSize > MAXFILE * BSIZE then none
  else if NewBlock ents k ∧ ballocOk = false then none
  else
    let ents := if k < ents.length then ents.set k de else ents ++ [de]
    some ((t.setDisk inum { t.disk inum with ents := ents }).iupdate dp)

/-- `dirlink(dp, name, inum)`: `-1` when `name` is in `dp` already, after giving back the
reference `dirlookup` took; else `0`, the entry written into the first free slot or at the end.
`none` is a panic: `dirlink`, one in `dirlookup`, or `balloc`'s when the entry starts a new block
and `ballocOk` is `false`. -/
def dirlink (t : Itable) (dp : Fin NINODE) (name : List Char) (inum : Nat) (ballocOk : Bool) :
    Option (Int × Itable) := do
  match ← t.dirlookup dp name with
  | (some (_, ip), t) =>
    let t ← t.iput ip
    pure (-1, t)
  | (none, t) =>
    let t ← t.writeEnt dp (freeSlot (t.ents dp)) ⟨UInt16.ofNat inum, name.take DIRSIZ⟩ ballocOk
    pure (0, t)

/-- `isdirempty(dp)`: no used entry past `.` and `..`. -/
def isdirempty (t : Itable) (dp : Fin NINODE) : Bool := ((t.ents dp).drop 2).all fun de => de.inum == 0

/-! ### Paths -/

/-- `skipelem(path, name)`: the next element, cut to `DIRSIZ` bytes, and the path after it and
the slashes that follow; `none` for `0`, a path of slashes only. -/
def skipelem (path : List Char) : Option (List Char × List Char) :=
  match path.dropWhile (· == '/') with
  | [] => none
  | c :: cs =>
    some (((c :: cs).takeWhile (· != '/')).take DIRSIZ,
      ((c :: cs).dropWhile (· != '/')).dropWhile (· == '/'))

theorem skipelem_lt {path name rest : List Char} (h : skipelem path = some (name, rest)) :
    rest.length < path.length := by
  unfold skipelem at h
  have hle := (List.dropWhile_sublist (l := path) fun c => c == '/').length_le
  split at h
  · cases h
  · rename_i c cs hcs
    obtain ⟨-, rfl⟩ := Prod.mk.inj (Option.some.inj h)
    -- the element starts with `c`, which is not a slash
    have hc : (c != '/') = true := by
      have := List.head_dropWhile_not (fun c => c == '/') (l := path) (by simp [hcs])
      simp only [hcs, List.head_cons] at this
      simpa using this
    have h1 := (List.dropWhile_sublist (l := cs.dropWhile (· != '/')) fun c => c == '/').length_le
    have h2 := (List.dropWhile_sublist (l := cs) fun c => c != '/').length_le
    rw [List.dropWhile_cons, if_pos hc]
    rw [hcs, List.length_cons] at hle
    omega

/-- The loop of `namex` from entry `ip`, to which the call holds a reference; `name` is the
buffer the last element was copied into.  The result is the entry reached, whose reference
passes to the caller, with the buffer, or `none` for `0`; the outer `none` is a panic. -/
def namexLoop (nameiparent : Bool) (t : Itable) (ip : Fin NINODE) (path name : List Char) :
    Option (Option (Fin NINODE × List Char) × Itable) :=
  match _hs : skipelem path with
  | none =>
    if nameiparent then (t.iput ip).map fun t => (none, t)
    else some (some (ip, name), t)
  | some (name, rest) => do
    let t ← t.ilock ip
    if (t.inode ip).type ≠ T_DIR then
      let t ← t.iunlockput ip
      pure (none, t)
    else if nameiparent ∧ rest = [] then
      -- stop one level early
      let t ← t.iunlock ip
      pure (some (ip, name), t)
    else
      match ← t.dirlookup ip name with
      | (none, t) =>
        let t ← t.iunlockput ip
        pure (none, t)
      | (some (_, next), t) =>
        let t ← t.iunlockput ip
        namexLoop nameiparent t next rest name
termination_by path.length
decreasing_by exact skipelem_lt _hs

/-- The loop's exit: the path has no element left. -/
theorem namexLoop_of_none {np : Bool} {t : Itable} {ip : Fin NINODE} {path name : List Char}
    (hs : skipelem path = none) :
    t.namexLoop np ip path name =
      if np then (t.iput ip).map fun t => (none, t) else some (some (ip, name), t) := by
  rw [namexLoop]
  split
  · rfl
  · simp_all

/-- `namex(path, nameiparent, name)` by the process whose `cwd` is `cwd`: from the root for a
path that starts with `/`, else from `idup(cwd)`.  A process without a `cwd` makes no system
call; `idup(0)` would fault. -/
def namex (t : Itable) (cwd : Option (Fin NINODE)) (path : List Char) (nameiparent : Bool) :
    Option (Option (Fin NINODE × List Char) × Itable) :=
  if path.head? = some '/' then
    (t.iget ROOTDEV ROOTINO).bind fun (ip, t) => namexLoop nameiparent t ip path []
  else
    match cwd with
    | none => none
    | some c => namexLoop nameiparent (t.idup c) c path []

/-- `namei(path)`. -/
def namei (t : Itable) (cwd : Option (Fin NINODE)) (path : List Char) :
    Option (Option (Fin NINODE) × Itable) :=
  (t.namex cwd path false).map fun (r, t) => (r.map Prod.fst, t)

/-- `nameiparent(path, name)`: the parent and the last element. -/
def nameiparent (t : Itable) (cwd : Option (Fin NINODE)) (path : List Char) :
    Option (Option (Fin NINODE × List Char) × Itable) :=
  t.namex cwd path true

/-- The table at boot (`iinit`): every entry zero, over the disk `d`. -/
def boot (d : Nat → DiskInode) : Itable := ⟨fun _ => ⟨0, 0, 0, false, false, 0, 0, 0, 0⟩, d⟩

end Itable

end Xv6Sched
