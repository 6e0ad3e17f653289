import Xv6Sched.Lib.Lts
import Mathlib

/-!
# Xv6Sched.Fs.Disk — the block layer of `kernel/fs.c`

The disk as the block layer reads it: the on-disk inodes by number (`IBLOCK`, `iupdate`), each
block as its `NINDIRECT` `uint` words (how `bmap` reads an indirect block), and the bytes of each
block (how `balloc` and `bfree` read the bitmap).  Each of these is written only through its own
functions, at blocks of its own region of the disk: inodes in the inode blocks, bitmap bytes at
`BBLOCK(b)`, words at blocks `balloc` handed out.  That the regions stay apart is part of what
`Xv6Sched.Fs.Blocks` proves.

The functions are those of `fs.c` with the buffer cache and the log taken as transparent: every
`bread`/`log_write` pair is a write of the block, which is how a completed operation leaves the
disk once its transaction has committed.  The in-memory inode of a locked inode is the on-disk one:
each operation that changes it ends with `iupdate`.  `none` is a panic.

The file-system system calls reach the disk only through these functions: `create` and `mkdir`
are `ialloc`, `iupdate` of `nlink` and `writei` of directory entries; `write` is `writei`;
`open` with `O_TRUNC` is `itrunc`; `unlink` is `writei` of an empty entry, `iupdate` of `nlink`
and `iput`; `link` is `iupdate` of `nlink` and `writei`; lookups are `readi`.  `FsOp` is one of
them, and `fsStep` runs it.
-/

namespace Xv6Sched

/-- `BSIZE`: bytes in a block. -/
def BSIZE : Nat := 1024

/-- `NDIRECT`: direct block addresses in an inode. -/
def NDIRECT : Nat := 12

/-- `NINDIRECT = BSIZE / sizeof(uint)`: block addresses in an indirect block. -/
def NINDIRECT : Nat := BSIZE / 4

/-- `MAXFILE`: blocks in the largest file. -/
def MAXFILE : Nat := NDIRECT + NINDIRECT

/-- `BPB`: bitmap bits per block. -/
def BPB : Nat := BSIZE * 8

/-- The fields of `struct superblock` the block layer reads. -/
structure Superblock where
  size : Nat
  nblocks : Nat
  ninodes : Nat
  inodestart : Nat
  bmapstart : Nat
  deriving DecidableEq, Repr

/-- The first data block: before it lie the boot block, the superblock, the log, the inode blocks
and the bitmap. -/
def Superblock.dataStart (sb : Superblock) : Nat := sb.size - sb.nblocks

/-- `struct dinode`, the device numbers aside; `addrs (Fin.last NDIRECT)` is the indirect
block. -/
structure Dinode where
  type : Nat
  nlink : Nat
  size : Nat
  addrs : Fin (NDIRECT + 1) → Nat

/-- The free on-disk inode `ialloc` makes of a slot before it sets the type:
`memset(dip, 0, sizeof(*dip))`. -/
def Dinode.zero : Dinode := ⟨0, 0, 0, fun _ => 0⟩

/-- The disk through the three ways the block layer reads it. -/
structure Fs where
  inode : Nat → Dinode
  data : Nat → Fin NINDIRECT → Nat
  bitmap : Nat → Nat → UInt8

namespace Fs

variable (d : Fs)

/-- `iupdate` of inode `inum` after its in-memory copy became `ip`. -/
def setInode (inum : Nat) (ip : Dinode) : Fs := { d with inode := Function.update d.inode inum ip }

/-- A write of block `b` as words. -/
def setData (b : Nat) (blk : Fin NINDIRECT → Nat) : Fs := { d with data := Function.update d.data b blk }

/-- A write of byte `i` of block `b`. -/
def setByte (b i : Nat) (x : UInt8) : Fs :=
  { d with bitmap := Function.update d.bitmap b (Function.update (d.bitmap b) i x) }

/-- `ip->addrs[k] = a; iupdate(ip)`. -/
def setAddr (inum : Nat) (k : Fin (NDIRECT + 1)) (a : Nat) : Fs :=
  d.setInode inum { d.inode inum with addrs := Function.update (d.inode inum).addrs k a }

/-- `ip->size = n; iupdate(ip)`. -/
def setSize (inum n : Nat) : Fs := d.setInode inum { d.inode inum with size := n }

/-- `ip->type = t; iupdate(ip)`. -/
def setType (inum t : Nat) : Fs := d.setInode inum { d.inode inum with type := t }

/-- `ip->nlink = n; iupdate(ip)`. -/
def setNlink (inum n : Nat) : Fs := d.setInode inum { d.inode inum with nlink := n }

end Fs

section Code

variable (sb : Superblock)

/-- `BBLOCK(b, sb)`: the bitmap block holding block `b`'s bit. -/
def BBLOCK (b : Nat) (sb : Superblock) : Nat := b / BPB + sb.bmapstart

/-- `m = 1 << (bi % 8)`: the mask of bit `bi` of a bitmap block in its byte `bi / 8`. -/
def bitMask (bi : Nat) : UInt8 := 1 <<< (bi % 8).toUInt8

/-- `bzero(dev, bno)`. -/
def bzero (d : Fs) (bno : Nat) : Fs := d.setData bno fun _ => 0

/-- The inner loop of `balloc` on the bitmap block of the blocks from `b`:
`for(bi = 0; bi < BPB && b + bi < sb.size; bi++)`, stopping at the first clear bit. -/
def ballocScan (d : Fs) (b : Nat) : Option Nat :=
  (List.range (min BPB (sb.size - b))).find? fun bi =>
    d.bitmap (BBLOCK b sb) (bi / 8) &&& bitMask bi == 0

/-- `balloc(dev)`: the outer loop takes `b = 0, BPB, 2 * BPB, …` while `b < sb.size`; the first
clear bit is set and its block zeroed.  `none` is the panic `balloc: out of blocks`. -/
def balloc (d : Fs) : Option (Nat × Fs) :=
  ((List.range ((sb.size + BPB - 1) / BPB)).findSome? fun i =>
      (ballocScan sb d (i * BPB)).map fun bi => (i * BPB, bi)).map fun (b, bi) =>
    (b + bi, bzero (d.setByte (BBLOCK b sb) (bi / 8)
      (d.bitmap (BBLOCK b sb) (bi / 8) ||| bitMask bi)) (b + bi))

/-- `bfree(dev, b)`; `none` is the panic `freeing free block`. -/
def bfree (d : Fs) (b : Nat) : Option Fs :=
  let bi := b % BPB
  let m := bitMask bi
  let byte := d.bitmap (BBLOCK b sb) (bi / 8)
  if byte &&& m = 0 then none
  else some (d.setByte (BBLOCK b sb) (bi / 8) (byte &&& ~~~m))

/-- `if((addr = slot) == 0) slot = addr = balloc(dev)`: the block a slot holds, one `balloc`
hands out when it holds none, which `write` then stores in the slot. -/
def allocSlot (d : Fs) (addr : Nat) (write : Nat → Fs → Fs) : Option (Nat × Fs) :=
  if addr = 0 then (balloc sb d).map fun r => (r.1, write r.1 r.2) else some (addr, d)

/-- `bmap(ip, bn)` for inode `inum`: block `bn` of the file, allocated (with the indirect block)
when missing.  `a[bn]` is written back into the indirect block as the buffer held it, which is
the block as it was read: `balloc` writes other blocks.  `none` is `bmap: out of range` or a
panic of `balloc`. -/
def bmap (d : Fs) (inum bn : Nat) : Option (Nat × Fs) :=
  if h : bn < NDIRECT then
    let k : Fin (NDIRECT + 1) := ⟨bn, Nat.lt_succ_of_lt h⟩
    allocSlot sb d ((d.inode inum).addrs k) fun addr d => d.setAddr inum k addr
  else if h' : bn - NDIRECT < NINDIRECT then
    let j : Fin NINDIRECT := ⟨bn - NDIRECT, h'⟩
    (allocSlot sb d ((d.inode inum).addrs (Fin.last NDIRECT)) fun addr d =>
        d.setAddr inum (Fin.last NDIRECT) addr).bind fun (ia, d) =>
      let a := d.data ia
      allocSlot sb d (a j) fun addr d => d.setData ia (Function.update a j addr)
  else none

/-- The first loop of `itrunc`, at `i`: `if(ip->addrs[i]){ bfree(ip->dev, ip->addrs[i]);
ip->addrs[i] = 0; }`. -/
def truncDirect (inum : Nat) (d : Fs) (i : Fin NDIRECT) : Option Fs :=
  let a := (d.inode inum).addrs i.castSucc
  if a ≠ 0 then (bfree sb d a).map fun d => d.setAddr inum i.castSucc 0 else some d

/-- The loop of `itrunc` over the indirect block `a`, at `j`: `if(a[j]) bfree(ip->dev, a[j]);`. -/
def truncEntry (a : Fin NINDIRECT → Nat) (d : Fs) (j : Fin NINDIRECT) : Option Fs :=
  if a j ≠ 0 then bfree sb d (a j) else some d

/-- The second half of `itrunc`: the entries of the indirect block, read once, then the block
itself. -/
def truncIndirect (inum : Nat) (d : Fs) : Option Fs :=
  let ia := (d.inode inum).addrs (Fin.last NDIRECT)
  if ia ≠ 0 then do
    let d ← (List.finRange NINDIRECT).foldlM (truncEntry sb (d.data ia)) d
    let d ← bfree sb d ia
    pure (d.setAddr inum (Fin.last NDIRECT) 0)
  else pure d

/-- `itrunc(ip)` of inode `inum`. -/
def itrunc (d : Fs) (inum : Nat) : Option Fs := do
  let d ← (List.finRange NDIRECT).foldlM (truncDirect sb inum) d
  let d ← truncIndirect sb inum d
  pure (d.setSize inum 0)

/-- What `either_copyin(bp->data + boff, user_src, src + tot, m)` makes of a block: given `tot`,
`boff` and `m`, the block with `m` bytes from the source at `boff`, or `none` when the copy
fails. -/
abbrev CopyIn := Nat → Nat → Nat → (Fin NINDIRECT → Nat) → Option (Fin NINDIRECT → Nat)

/-- Whether `either_copyout(user_dst, dst + tot, bp->data + boff, m)` succeeds, given `tot`,
`boff`, `m` and the block. -/
abbrev CopyOut := Nat → Nat → Nat → (Fin NINDIRECT → Nat) → Bool

/-- The loop of `writei`: `tot`, `off` and the disk when it ends. -/
def writeLoop (inum n : Nat) (copyin : CopyIn) (tot off : Nat) (d : Fs) :
    Option (Nat × Nat × Fs) :=
  if _htot : tot < n then
    match bmap sb d inum (off / BSIZE) with
    | none => none
    | some (addr, d) =>
      match copyin tot (off % BSIZE) (min (n - tot) (BSIZE - off % BSIZE)) (d.data addr) with
      | none => some (tot, off, d)
      | some blk =>
        writeLoop inum n copyin (tot + min (n - tot) (BSIZE - off % BSIZE))
          (off + min (n - tot) (BSIZE - off % BSIZE)) (d.setData addr blk)
  else some (tot, off, d)
termination_by n - tot
decreasing_by
  have : off % BSIZE < BSIZE := Nat.mod_lt _ (by decide)
  have : 0 < n - tot := Nat.sub_pos_of_lt _htot
  omega

/-- `writei(ip, user_src, src, off, n)` of inode `inum`; `off + n` is `uint` arithmetic. -/
def writei (d : Fs) (inum off n : Nat) (copyin : CopyIn) : Option (Int × Fs) :=
  if off > (d.inode inum).size ∨ (off + n) % 2 ^ 32 < off then some (-1, d)
  else if (off + n) % 2 ^ 32 > MAXFILE * BSIZE then some (-1, d)
  else (writeLoop sb inum n copyin 0 off d).map fun (tot, off, d) =>
    -- `if(off > ip->size) ip->size = off; iupdate(ip)`
    ((tot : Int), if off > (d.inode inum).size then d.setSize inum off else d)

/-- The loop of `readi`; `-1` is `tot = -1` after a failed copy. -/
def readLoop (inum n : Nat) (copyout : CopyOut) (tot off : Nat) (d : Fs) : Option (Int × Fs) :=
  if _htot : tot < n then
    match bmap sb d inum (off / BSIZE) with
    | none => none
    | some (addr, d) =>
      if copyout tot (off % BSIZE) (min (n - tot) (BSIZE - off % BSIZE)) (d.data addr) then
        readLoop inum n copyout (tot + min (n - tot) (BSIZE - off % BSIZE))
          (off + min (n - tot) (BSIZE - off % BSIZE)) d
      else some (-1, d)
  else some (tot, d)
termination_by n - tot
decreasing_by
  have : off % BSIZE < BSIZE := Nat.mod_lt _ (by decide)
  have : 0 < n - tot := Nat.sub_pos_of_lt _htot
  omega

/-- `readi(ip, user_dst, dst, off, n)` of inode `inum`.  A block `bmap` allocates here reaches
the on-disk inode at its next `iupdate`; the model writes it at once. -/
def readi (d : Fs) (inum off n : Nat) (copyout : CopyOut) : Option (Int × Fs) :=
  if off > (d.inode inum).size ∨ (off + n) % 2 ^ 32 < off then some (0, d)
  else
    let n := if (off + n) % 2 ^ 32 > (d.inode inum).size then (d.inode inum).size - off else n
    readLoop sb inum n copyout 0 off d

/-- `ialloc(dev, type)`: the first free inode from `1`; `none` is `ialloc: no inodes`. -/
def ialloc (d : Fs) (type : Nat) : Option (Nat × Fs) :=
  ((List.range' 1 (sb.ninodes - 1)).find? fun inum => (d.inode inum).type == 0).map fun inum =>
    (inum, d.setInode inum { Dinode.zero with type := type })

/-- The disk effect of `iput(ip)` when `ip->ref == 1 && ip->valid`: an inode with no links is
truncated and freed. -/
def iput (d : Fs) (inum : Nat) : Option Fs :=
  if (d.inode inum).nlink = 0 then (itrunc sb d inum).map fun d => d.setType inum 0
  else some d

/-- A call of the block layer. -/
inductive FsOp where
  | ialloc (type : Nat)
  | writei (inum off n : Nat) (copyin : CopyIn)
  | readi (inum off n : Nat) (copyout : CopyOut)
  | itrunc (inum : Nat)
  | iput (inum : Nat)
  | setNlink (inum nlink : Nat)

/-- Whether a call may act on inode `inum`.  The inodes system calls reach are named by directory
entries, which hold numbers of the inode table (`ialloc` hands out numbers below `sb.ninodes`),
and `ilock` panics with `ilock: no type` on a free inode; `iput` acts on a valid inode, which
`ilock` read. -/
def inodeOk (d : Fs) (inum : Nat) : Bool := decide (inum < sb.ninodes) && (d.inode inum).type != 0

/-- One call. -/
def fsStep (d : Fs) : FsOp → Option Fs
  | .ialloc type => (ialloc sb d type).map Prod.snd
  | .writei inum off n copyin =>
    if inodeOk sb d inum then (writei sb d inum off n copyin).map Prod.snd else none
  | .readi inum off n copyout =>
    if inodeOk sb d inum then (readi sb d inum off n copyout).map Prod.snd else none
  | .itrunc inum => if inodeOk sb d inum then itrunc sb d inum else none
  | .iput inum => if inodeOk sb d inum then iput sb d inum else none
  | .setNlink inum nlink => if inodeOk sb d inum then some (d.setNlink inum nlink) else none

/-- Disks reached from `d0` by completed calls. -/
def FsReachable (d0 : Fs) : Fs → Prop := LTS.Reachable (fsStep sb) d0

end Code

end Xv6Sched
