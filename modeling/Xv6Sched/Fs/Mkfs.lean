import Xv6Sched.Fs.Content
import Xv6Sched.Fs.Log

/-!
# Xv6Sched.Fs.Mkfs — the image `mkfs/mkfs.c` writes, and the disk the kernel reads from it

`mkfs` lays out `FSSIZE` blocks: the boot block, the superblock, `nlog` log blocks, the inode
blocks, the bitmap and the data blocks.  It hands out inode numbers from `freeinode` and blocks
from `freeblock`, one after the other, and writes the bitmap last (`balloc(freeblock)`).  The image
is kept as blocks of `uint` words (the build host and the machine are little-endian); an inode is
16 of them (`dinodeWord`), in slot `inum % IPB` of block `IBLOCK(inum)`, and the bytes `iappend`
copies into a block (`bcopy`) are bytes of its words as the kernel reads them (`blockByte`).
`diskView` is the disk the block layer reads from an image (`Xv6Sched.Fs.Disk`).

Each input file is its name and the bytes its `read` calls return.  `main` takes `user/` and a
leading `_` off the name (`shortName`) and writes the entry `struct dirent` of the root directory
byte for byte (`direntBytes`); a reader of those 16 bytes gets the entry back (`decodeDirent`,
`decodeDirent_direntBytes`), and the kernel, reading the root through `bmap`, finds each file's
number and short name in order (`mkfs_root_entries`).

Each step of `main` is a lemma over its state (`root_spec`, `addFile_empty`, `iappend_dir`,
`fixRoot_eq`), and a run of files is a fold of one of them (`addFiles_inv`).
Nothing in `mkfs` bounds the inode numbers it hands out by `NINODES`: inode `inum` goes to block
`IBLOCK(inum)` whatever that block holds.  With 431 input files, the 431st file's inode lands in
the indirect block of the first (`mkfs_overflow_refs_log_block`).  The rounding of the root
directory's size claims a block more than the root maps whenever its entries fill whole blocks, as
with 62 input files (`mkfs_root_size_past_blocks`).
-/

namespace Xv6Sched

/-- `FSSIZE`: blocks in the image. -/
def FSSIZE : Nat := 1000

/-- `NINODES` of `mkfs.c`. -/
def NINODES : Nat := 200

/-- `IPB = BSIZE / sizeof(struct dinode)`: inodes per block. -/
def IPB : Nat := BSIZE / 64

/-- `ROOTINO`. -/
def ROOTINO : Nat := 1

/-- `T_DIR`. -/
def T_DIR : Nat := 1

/-- `T_FILE`. -/
def T_FILE : Nat := 2

/-- `DIRSIZ`: the bytes of a name in a directory entry. -/
def DIRSIZ : Nat := 14

/-- `struct dirent`; `inum == 0` marks a free entry.  A name is kept as the bytes `namecmp`
reads: at most `DIRSIZ`, up to its first `NUL`. -/
structure Dirent where
  inum : UInt16
  name : List Char
  deriving DecidableEq, Repr

/-- `sizeof(struct dirent)`: a `ushort` and `DIRSIZ = 14` bytes. -/
def direntSize : Nat := 16

/-- `IBLOCK(i, sb)`: the block holding inode `i`. -/
def IBLOCK (i : Nat) (sb : Superblock) : Nat := i / IPB + sb.inodestart

/-- Inode `i`'s slot in its block: `(struct dinode*)bp->data + i % IPB`. -/
def slotOf (i : Nat) : Nat := i % IPB

/-- The 16 `uint` words of a `struct dinode` as `winode` writes it (`xshort`, `xint`): `type` and
`major`, `minor` and `nlink`, `size`, then `addrs`.  `major` and `minor` are `0` in every inode
`mkfs` writes. -/
def dinodeWord (din : Dinode) : Fin 16 → Nat
  | ⟨0, _⟩ => din.type % 2 ^ 16
  | ⟨1, _⟩ => din.nlink % 2 ^ 16 * 2 ^ 16
  | ⟨2, _⟩ => din.size % 2 ^ 32
  | ⟨k + 3, h⟩ => din.addrs ⟨k, by unfold NDIRECT; omega⟩ % 2 ^ 32

/-- A `struct dinode` read from its 16 words. -/
def decodeDinode (ws : Fin 16 → Nat) : Dinode where
  type := ws 0 % 2 ^ 16
  nlink := ws 1 / 2 ^ 16 % 2 ^ 16
  size := ws 2 % 2 ^ 32
  addrs k := ws ⟨k + 3, by have := k.isLt; unfold NDIRECT at this; omega⟩ % 2 ^ 32

/-- Block `blk` with `din` written into slot `slot`. -/
def writeSlot (blk : Fin NINDIRECT → Nat) (slot : Nat) (din : Dinode) : Fin NINDIRECT → Nat :=
  fun w => if w.val / 16 = slot then dinodeWord din ⟨w.val % 16, Nat.mod_lt _ (by decide)⟩ else blk w

/-- The inode in slot `slot` of block `blk`. -/
def readSlot (blk : Fin NINDIRECT → Nat) (slot : Nat) : Dinode :=
  decodeDinode fun k => blk ⟨(16 * slot + k.val) % NINDIRECT, Nat.mod_lt _ (by decide)⟩

/-- The disk the block layer reads from the image `img` with superblock `sb`: `iget` reads inode
`inum` from its slot of block `IBLOCK(inum, sb)`, `bmap` reads words, and `balloc` and `bfree`
read byte `k` of a block, which is byte `k % 4` of its word `k / 4`. -/
def diskView (sb : Superblock) (img : Nat → Fin NINDIRECT → Nat) : Fs where
  inode inum := readSlot (img (IBLOCK inum sb)) (slotOf inum)
  data := img
  bitmap b k := (img b ⟨k / 4 % NINDIRECT, Nat.mod_lt _ (by decide)⟩ / 2 ^ (8 * (k % 4)) % 256).toUInt8

/-- The byte a character of a name is stored as: an argument of `main` is a C string, one byte a
character. -/
def charByte (c : Char) : UInt8 := UInt8.ofNat c.toNat

/-- The 16 bytes of the `struct dirent` `de` as `main` fills it after `bzero(&de, sizeof(de))`:
`xshort(inum)`, least significant byte first, then the name as `strncpy(de.name, name, DIRSIZ)`
copies it, padded with `NUL`. -/
def direntBytes (de : Dirent) : Nat → UInt8
  | 0 => UInt8.ofNat de.inum.toNat
  | 1 => UInt8.ofNat (de.inum.toNat / 256)
  | i + 2 => if i < DIRSIZ then charByte (de.name.getD i (Char.ofNat 0)) else 0

/-- The `struct dirent` a reader of the 16 bytes `f` sees: `inum` little-endian, and the name up to
its first `NUL` within `DIRSIZ` bytes, as `namecmp` reads it. -/
def decodeDirent (f : Nat → UInt8) : Dirent :=
  ⟨UInt16.ofNat ((f 0).toNat + 256 * (f 1).toNat),
    ((List.range DIRSIZ).map fun i => Char.ofNat (f (i + 2)).toNat).takeWhile (· != Char.ofNat 0)⟩

/-- `bcopy(p, buf + boff, n)` on a block kept as words: its bytes `boff .. boff + n` become
`p[0] .. p[n - 1]`, and the others stay. -/
def bcopy (p : Nat → UInt8) (buf : Fin NINDIRECT → Nat) (boff n : Nat) : Fin NINDIRECT → Nat :=
  ofBytes fun i => if boff ≤ i ∧ i < boff + n then p (i - boff) else blockByte buf i

/-- Entry `j` of the directory `inum` as the kernel reads it: the 16 bytes at offset `16 * j` of
its content, through the block map. -/
def dirEntry (d : Fs) (inum j : Nat) : Dirent := decodeDirent fun i => fileByte d inum (direntSize * j + i)

/-- What `mkfs` has written so far: the image, and the next inode number and block it hands
out. -/
structure MkState where
  img : Nat → Fin NINDIRECT → Nat
  freeinode : Nat
  freeblock : Nat

namespace Mkfs

/-- `nbitmap`. -/
def nbitmap : Nat := FSSIZE / (BSIZE * 8) + 1

/-- `ninodeblocks`. -/
def ninodeblocks : Nat := NINODES / IPB + 1

/-- `nlog`. -/
def nlog : Nat := LOGSIZE

/-- `nmeta`: boot block, superblock, log, inode blocks and bitmap. -/
def nmeta : Nat := 2 + nlog + ninodeblocks + nbitmap

/-- `nblocks`: the data blocks. -/
def nblocks : Nat := FSSIZE - nmeta

/-- The superblock `mkfs` writes to block 1, its fields the block layer reads. -/
def sb : Superblock := ⟨FSSIZE, nblocks, NINODES, 2 + nlog, 2 + nlog + ninodeblocks⟩

/-- `rsect(sec, buf)`; `none` is `die("read")`, a read past the end of the image.  The image holds
`FSSIZE` blocks: the first loop of `main` writes them, and every later `wsect` writes a block that
was just read or the bitmap block. -/
def rsect (st : MkState) (sec : Nat) : Option (Fin NINDIRECT → Nat) :=
  if sec < FSSIZE then some (st.img sec) else none

/-- `wsect(sec, buf)`. -/
def wsect (st : MkState) (sec : Nat) (buf : Fin NINDIRECT → Nat) : MkState :=
  { st with img := Function.update st.img sec buf }

/-- `winode(inum, ip)`. -/
def winode (st : MkState) (inum : Nat) (din : Dinode) : Option MkState :=
  (rsect st (IBLOCK inum sb)).map fun buf =>
    wsect st (IBLOCK inum sb) (writeSlot buf (slotOf inum) din)

/-- `rinode(inum, ip)`. -/
def rinode (st : MkState) (inum : Nat) : Option Dinode :=
  (rsect st (IBLOCK inum sb)).map fun buf => readSlot buf (slotOf inum)

/-- `ialloc(type)`: inode `freeinode++`, with one link and no blocks. -/
def ialloc (st : MkState) (type : Nat) : Option (Nat × MkState) :=
  let inum := st.freeinode
  (winode { st with freeinode := inum + 1 } inum ⟨type, 1, 0, fun _ => 0⟩).map fun st => (inum, st)

/-- The block `iappend` writes for file block `fbn` of the inode `din`, with the inode and the
state after it: `din.addrs[fbn]`, or the entry `fbn - NDIRECT` of the indirect block, each taken
from `freeblock++` when `0`.  `none` is a `die` of `rsect`. -/
def appendBlock (st : MkState) (din : Dinode) (fbn : Nat) : Option (Nat × Dinode × MkState) :=
  if h : fbn < NDIRECT then
    let k : Fin (NDIRECT + 1) := ⟨fbn, Nat.lt_succ_of_lt h⟩
    if din.addrs k = 0 then
      some (st.freeblock, { din with addrs := Function.update din.addrs k st.freeblock },
        { st with freeblock := st.freeblock + 1 })
    else some (din.addrs k, din, st)
  else if h' : fbn - NDIRECT < NINDIRECT then
    let j : Fin NINDIRECT := ⟨fbn - NDIRECT, h'⟩
    let (din, st) : Dinode × MkState :=
      if din.addrs (Fin.last NDIRECT) = 0 then
        ({ din with addrs := Function.update din.addrs (Fin.last NDIRECT) st.freeblock },
          { st with freeblock := st.freeblock + 1 })
      else (din, st)
    let ia := din.addrs (Fin.last NDIRECT)
    (rsect st ia).map fun indirect =>
      if indirect j = 0 then
        (st.freeblock, din,
          wsect { st with freeblock := st.freeblock + 1 } ia (Function.update indirect j st.freeblock))
      else (indirect j, din, st)
  else none

/-- The loop of `iappend(inum, p, n)`: the inode, the offset and the state when it ends.  `p` is
the source from where the loop stands.  `none` is a `die` or the failed `assert(fbn < MAXFILE)`. -/
def iappendLoop (p : Nat → UInt8) (n off : Nat) (din : Dinode) (st : MkState) :
    Option (Dinode × Nat × MkState) :=
  if _hn : n > 0 then
    let fbn := off / BSIZE
    if fbn < MAXFILE then
      match appendBlock st din fbn with
      | none => none
      | some (x, din, st) =>
        let n1 := min n ((fbn + 1) * BSIZE - off)
        -- `rsect(x, buf); bcopy(p, buf + off - (fbn * BSIZE), n1); wsect(x, buf)`, then `p += n1`
        match rsect st x with
        | none => none
        | some buf =>
          iappendLoop (fun i => p (n1 + i)) (n - n1) (off + n1) din
            (wsect st x (bcopy p buf (off - fbn * BSIZE) n1))
    else none
  else some (din, off, st)
termination_by n
decreasing_by
  have : off < (off / BSIZE + 1) * BSIZE := by
    rw [Nat.add_mul, Nat.one_mul]
    exact Nat.lt_div_mul_add (by decide)
  omega

/-- `iappend(inum, p, n)`. -/
def iappend (st : MkState) (inum : Nat) (p : Nat → UInt8) (n : Nat) : Option MkState := do
  let din ← rinode st inum
  let (din, off, st) ← iappendLoop p n din.size din st
  winode st inum { din with size := off }

/-- The bitmap block `balloc(used)` writes, as words: `buf[i/8] |= 1 << (i%8)` for each
`i < used` sets bit `i % 32` of word `i / 32`. -/
def usedBits (used : Nat) : Fin NINDIRECT → Nat :=
  (List.range used).foldl
    (fun buf i => Function.update buf ⟨i / 32 % NINDIRECT, Nat.mod_lt _ (by decide)⟩
      (buf ⟨i / 32 % NINDIRECT, Nat.mod_lt _ (by decide)⟩ ||| 2 ^ (i % 32)))
    fun _ => 0

/-- `balloc(used)`; `none` is the failed `assert(used < BSIZE*8)`. -/
def balloc (st : MkState) (used : Nat) : Option MkState :=
  if used < BSIZE * 8 then some (wsect st sb.bmapstart (usedBits used)) else none

/-- The name `main` gives the file `argv[i]` in the root directory: without a leading `user/`
(`strncmp(argv[i], "user/", 5) == 0`), then without a leading `_`.  `none` is the failed
`assert(index(shortname, '/') == 0)`, made before the `_` goes. -/
def shortName (arg : List Char) : Option (List Char) :=
  let s := if arg.take 5 = ['u', 's', 'e', 'r', '/'] then arg.drop 5 else arg
  if '/' ∈ s then none
  else some (if s.head? = some '_' then s.tail else s)

/-- The body of the loop of `main` for the file `argv[i]`, given by its name and the bytes each of
its `read` calls returns: its inode, its entry in the root directory, then its contents.  `none`
is a `die` or a failed `assert`. -/
def addFile (st : MkState) (file : List Char × List (List UInt8)) : Option MkState := do
  let shortname ← shortName file.1
  let (inum, st) ← ialloc st T_FILE
  let st ← iappend st ROOTINO (direntBytes ⟨UInt16.ofNat inum, shortname.take DIRSIZ⟩) direntSize
  -- `while((cc = read(fd, buf, sizeof(buf))) > 0) iappend(inum, buf, cc)`
  file.2.foldlM (fun st buf => iappend st inum (fun i => buf.getD i 0) buf.length) st

end Mkfs

/-- `main` up to the loop over the files: the image zeroed, and the root directory with its
entries `.` and `..`; `none` is a `die` or the failed `assert(rootino == ROOTINO)`. -/
def Mkfs.root : Option MkState := do
  -- `for(i = 0; i < FSSIZE; i++) wsect(i, zeroes)`, and `freeblock = nmeta`
  let st : MkState := ⟨fun _ _ => 0, 1, Mkfs.nmeta⟩
  let (rootino, st) ← Mkfs.ialloc st T_DIR
  guard (rootino = ROOTINO)
  let st ← Mkfs.iappend st rootino (direntBytes ⟨UInt16.ofNat rootino, ['.']⟩) direntSize
  Mkfs.iappend st rootino (direntBytes ⟨UInt16.ofNat rootino, ['.', '.']⟩) direntSize

/-- `main` after the loop over the files: `fix size of root inode dir`, then the bitmap.  The
`assert` has made `rootino` equal to `ROOTINO`. -/
def Mkfs.fixRoot (st : MkState) : Option MkState := do
  let din ← Mkfs.rinode st ROOTINO
  let st ← Mkfs.winode st ROOTINO { din with size := (din.size / BSIZE + 1) * BSIZE }
  Mkfs.balloc st st.freeblock

/-- `main` of `mkfs` on the input files, each its name and its contents as `read` returns them;
`none` is a `die` or a failed `assert`.  The superblock it writes to block 1 is `Mkfs.sb`. -/
def mkfs (files : List (List Char × List (List UInt8))) : Option MkState := do
  let st ← Mkfs.root
  let st ← files.foldlM Mkfs.addFile st
  Mkfs.fixRoot st

/-! ### Entries and bytes -/

/-- A name that is stored byte for byte: at most `DIRSIZ` characters, each a byte and none of them
`NUL`, as `strncpy` copies a C string. -/
def Dirent.Stored (de : Dirent) : Prop :=
  de.name.length ≤ DIRSIZ ∧ ∀ c ∈ de.name, c ≠ Char.ofNat 0 ∧ c.toNat < 256

theorem charByte_toChar {c : Char} (h : c.toNat < 256) : Char.ofNat (charByte c).toNat = c := by
  rw [charByte, UInt8.toNat_ofNat', Nat.mod_eq_of_lt (by simpa using h), Char.ofNat_toNat]

/-- The first `n` characters of `l` padded with `d`, read one index at a time. -/
theorem map_getD_range {α : Type} (l : List α) (d : α) {n : Nat} (h : l.length ≤ n) :
    (List.range n).map (fun i => l.getD i d) = l ++ List.replicate (n - l.length) d := by
  apply List.ext_getElem
  · simp only [List.length_map, List.length_range, List.length_append, List.length_replicate]
    omega
  · intro i h1 _
    simp only [List.getElem_map, List.getElem_range, List.getElem_append, List.getD_eq_getElem?_getD]
    split_ifs with hi
    · rw [List.getElem?_eq_getElem hi, Option.getD_some]
    · rw [List.getElem?_eq_none (by omega), Option.getD_none, List.getElem_replicate]

/-- **Round trip.** The bytes `main` writes for an entry read back as the entry. -/
theorem decodeDirent_direntBytes {de : Dirent} (h : de.Stored) : decodeDirent (direntBytes de) = de := by
  obtain ⟨inum, name⟩ := de
  obtain ⟨hlen, hc⟩ := h
  simp only at hlen hc
  simp only [decodeDirent, direntBytes, Dirent.mk.injEq]
  constructor
  · -- `xshort`: the two bytes of the `ushort`
    have hi := inum.toNat_lt
    apply UInt16.toNat_inj.mp
    rw [UInt16.toNat_ofNat', UInt8.toNat_ofNat', UInt8.toNat_ofNat']
    omega
  · -- the name, then its `NUL` padding, which `namecmp` does not read
    have hchar : ∀ i, Char.ofNat (charByte (name.getD i (Char.ofNat 0))).toNat = name.getD i (Char.ofNat 0) := by
      intro i
      rw [List.getD_eq_getElem?_getD]
      cases hget : name[i]? with
      | none => rfl
      | some c => exact charByte_toChar (hc c (List.mem_of_getElem? hget)).2
    have hmap : ((List.range DIRSIZ).map fun i =>
        Char.ofNat (if i < DIRSIZ then charByte (name.getD i (Char.ofNat 0)) else 0).toNat) =
        name ++ List.replicate (DIRSIZ - name.length) (Char.ofNat 0) := by
      rw [← map_getD_range name _ hlen]
      apply List.map_congr_left
      intro i hi
      rw [if_pos (List.mem_range.mp hi), hchar]
    rw [hmap, List.takeWhile_append_of_pos (fun c hc' => by simpa using (hc c hc').1),
      List.takeWhile_replicate]
    simp

/-- A reader of an entry reads its 16 bytes and no other. -/
theorem decodeDirent_congr {f g : Nat → UInt8} (h : ∀ i < direntSize, f i = g i) :
    decodeDirent f = decodeDirent g := by
  have h0 := h 0 (by decide)
  have h1 := h 1 (by decide)
  simp only [decodeDirent, h0, h1, Dirent.mk.injEq, true_and]
  congr 1
  apply List.map_congr_left
  intro i hi
  have := List.mem_range.mp hi
  rw [h (i + 2) (by unfold DIRSIZ at this; unfold direntSize; omega)]

theorem blockByte_bcopy (p : Nat → UInt8) (buf : Fin NINDIRECT → Nat) (boff n : Nat) {i : Nat}
    (hi : i < BSIZE) :
    blockByte (bcopy p buf boff n) i = if boff ≤ i ∧ i < boff + n then p (i - boff) else blockByte buf i :=
  blockByte_ofBytes _ hi

/-! ### Inodes in their slots -/

theorem nindirect_pos : 0 < NINDIRECT := by decide

/-- The fields of an inode fit the widths of `struct dinode`. -/
def Dinode.Fits (din : Dinode) : Prop :=
  din.type < 2 ^ 16 ∧ din.nlink < 2 ^ 16 ∧ din.size < 2 ^ 32 ∧ ∀ k, din.addrs k < 2 ^ 32

theorem decode_dinodeWord {din : Dinode} (h : din.Fits) : decodeDinode (dinodeWord din) = din := by
  cases din with
  | mk type nlink size addrs =>
    obtain ⟨ht, hn, hs, ha⟩ := h
    simp only at ht hn hs ha
    simp only [decodeDinode, dinodeWord, Dinode.mk.injEq, Fin.eta]
    refine ⟨by omega, by omega, by omega, funext fun k => ?_⟩
    have := ha k
    omega

theorem slotOf_lt (i : Nat) : slotOf i < 16 := Nat.mod_lt _ (by decide)

/-- An inode is where its block and its slot say: no two inodes share both. -/
theorem eq_of_slot_eq {sb : Superblock} {i j : Nat} (h1 : IBLOCK i sb = IBLOCK j sb)
    (h2 : slotOf i = slotOf j) : i = j := by
  unfold IBLOCK slotOf IPB BSIZE at *
  omega

theorem writeSlot_of_ne {blk : Fin NINDIRECT → Nat} {slot : Nat} {din : Dinode} {w : Fin NINDIRECT}
    (h : w.val / 16 ≠ slot) : writeSlot blk slot din w = blk w := if_neg h

/-- Every inode reads back from the slot it was written to. -/
theorem readSlot_writeSlot_same {blk : Fin NINDIRECT → Nat} {slot : Nat} {din : Dinode}
    (hs : slot < 16) (h : din.Fits) : readSlot (writeSlot blk slot din) slot = din := by
  unfold readSlot
  conv_rhs => rw [← decode_dinodeWord h]
  congr 1
  funext k
  have hk := k.isLt
  unfold writeSlot
  rw [if_pos (by unfold NINDIRECT BSIZE; simp only; omega)]
  congr 1
  apply Fin.ext
  simp only
  unfold NINDIRECT BSIZE
  omega

/-- Writing one slot leaves the others as they were. -/
theorem readSlot_writeSlot_ne {blk : Fin NINDIRECT → Nat} {slot slot' : Nat} {din : Dinode}
    (hs' : slot' < 16) (hne : slot' ≠ slot) : readSlot (writeSlot blk slot din) slot' = readSlot blk slot' := by
  unfold readSlot
  congr 1
  funext k
  have hk := k.isLt
  apply writeSlot_of_ne
  simp only
  unfold NINDIRECT BSIZE
  omega

namespace Mkfs

/-- `winode` without the check that the inode's block lies in the image. -/
def putInode (st : MkState) (inum : Nat) (din : Dinode) : MkState :=
  wsect st (IBLOCK inum sb) (writeSlot (st.img (IBLOCK inum sb)) (slotOf inum) din)

/-- `ialloc(type)` without the check that the inode's block lies in the image. -/
def newInode (st : MkState) (type : Nat) : MkState :=
  putInode { st with freeinode := st.freeinode + 1 } st.freeinode ⟨type, 1, 0, fun _ => 0⟩

/-- The block holding entry `k` of a directory: `addrs[16 * k / BSIZE]`. -/
def dirBlock (din : Dinode) (k : Nat) : Nat :=
  if h : direntSize * k / BSIZE < NDIRECT + 1 then din.addrs ⟨_, h⟩ else 0

/-- `iappend` of entry `k`, the bytes `p`, to the directory `inum` that becomes `din`, without its
checks: the bytes copied into the entry's block, then the inode. -/
def putEntry (st : MkState) (inum : Nat) (din : Dinode) (k : Nat) (p : Nat → UInt8) : MkState :=
  putInode (wsect st (dirBlock din k) (bcopy p (st.img (dirBlock din k)) (direntSize * k % BSIZE) direntSize))
    inum din

variable {st : MkState} {inum : Nat} {din : Dinode}

@[simp] theorem wsect_freeinode (b : Nat) (buf : Fin NINDIRECT → Nat) :
    (wsect st b buf).freeinode = st.freeinode := rfl

@[simp] theorem wsect_freeblock (b : Nat) (buf : Fin NINDIRECT → Nat) :
    (wsect st b buf).freeblock = st.freeblock := rfl

@[simp] theorem wsect_img_self (b : Nat) (buf : Fin NINDIRECT → Nat) : (wsect st b buf).img b = buf :=
  Function.update_self _ _ _

theorem wsect_img_of_ne {b c : Nat} {buf : Fin NINDIRECT → Nat} (h : c ≠ b) :
    (wsect st b buf).img c = st.img c := Function.update_of_ne h _ _

@[simp] theorem putInode_freeinode : (putInode st inum din).freeinode = st.freeinode := rfl

@[simp] theorem putInode_freeblock : (putInode st inum din).freeblock = st.freeblock := rfl

@[simp] theorem putEntry_freeinode {k : Nat} {p : Nat → UInt8} :
    (putEntry st inum din k p).freeinode = st.freeinode := rfl

@[simp] theorem putEntry_freeblock {k : Nat} {p : Nat → UInt8} :
    (putEntry st inum din k p).freeblock = st.freeblock := rfl

theorem putInode_img_of_ne {b : Nat} (h : b ≠ IBLOCK inum sb) :
    (putInode st inum din).img b = st.img b := wsect_img_of_ne h

/-- The inode written reads back. -/
theorem inode_putInode_same (h : din.Fits) : (diskView sb (putInode st inum din).img).inode inum = din := by
  show readSlot ((wsect st _ _).img (IBLOCK inum sb)) (slotOf inum) = din
  rw [wsect_img_self]
  exact readSlot_writeSlot_same (slotOf_lt inum) h

/-- The other inodes read as before. -/
theorem inode_putInode_ne {i : Nat} (h : i ≠ inum) :
    (diskView sb (putInode st inum din).img).inode i = (diskView sb st.img).inode i := by
  show readSlot ((wsect st _ _).img (IBLOCK i sb)) (slotOf i) = readSlot (st.img (IBLOCK i sb)) (slotOf i)
  by_cases hb : IBLOCK i sb = IBLOCK inum sb
  · rw [hb, wsect_img_self, readSlot_writeSlot_ne (slotOf_lt i)]
    exact fun hs => h (eq_of_slot_eq hb hs)
  · rw [wsect_img_of_ne hb]

theorem winode_eq (h : IBLOCK inum sb < FSSIZE) : winode st inum din = some (putInode st inum din) := by
  simp [winode, rsect, h, putInode]

theorem rinode_eq (h : IBLOCK inum sb < FSSIZE) :
    rinode st inum = some ((diskView sb st.img).inode inum) := by
  simp [rinode, rsect, h, diskView]

theorem ialloc_eq {type : Nat} (h : IBLOCK st.freeinode sb < FSSIZE) :
    ialloc st type = some (st.freeinode, newInode st type) := by
  simp only [ialloc, winode_eq h, Option.map_some, newInode]

/-! ### One piece of `iappend` -/

theorem iappendLoop_zero (p : Nat → UInt8) (off : Nat) (din : Dinode) (st : MkState) :
    iappendLoop p 0 off din st = some (din, off, st) := by
  rw [iappendLoop, dif_neg (Nat.lt_irrefl 0)]

/-- A piece that fits in the block of its offset is one pass of the loop: the block is read,
the piece copied into it, and the block written. -/
theorem iappendLoop_fit {p : Nat → UInt8} {n off x : Nat} {din' : Dinode} {st' : MkState} (hn : 0 < n)
    (hfit : off % BSIZE + n ≤ BSIZE) (hmax : off / BSIZE < MAXFILE)
    (ha : appendBlock st din (off / BSIZE) = some (x, din', st')) (hx : x < FSSIZE) :
    iappendLoop p n off din st = some (din', off + n, wsect st' x (bcopy p (st'.img x) (off % BSIZE) n)) := by
  have hm : min n ((off / BSIZE + 1) * BSIZE - off) = n := by
    unfold BSIZE at *
    omega
  have hb : off - off / BSIZE * BSIZE = off % BSIZE := by
    unfold BSIZE
    omega
  rw [iappendLoop, dif_pos hn, if_pos hmax]
  simp only [ha, rsect, if_pos hx, hm, Nat.sub_self, hb]
  exact iappendLoop_zero _ _ _ _

/-- `iappend` of a piece that fits in the block at the end of the file. -/
theorem iappend_fit {p : Nat → UInt8} {n x : Nat} {din' : Dinode} {st' : MkState} (hI : IBLOCK inum sb < FSSIZE)
    (hn : 0 < n) (hfit : ((diskView sb st.img).inode inum).size % BSIZE + n ≤ BSIZE)
    (hmax : ((diskView sb st.img).inode inum).size / BSIZE < MAXFILE)
    (ha : appendBlock st ((diskView sb st.img).inode inum)
      (((diskView sb st.img).inode inum).size / BSIZE) = some (x, din', st'))
    (hx : x < FSSIZE) :
    iappend st inum p n =
      some (putInode (wsect st' x (bcopy p (st'.img x) (((diskView sb st.img).inode inum).size % BSIZE) n))
        inum { din' with size := ((diskView sb st.img).inode inum).size + n }) := by
  simp [iappend, rinode_eq hI, iappendLoop_fit hn hfit hmax ha hx, winode_eq hI]

theorem appendBlock_direct_new {fbn : Nat} (h : fbn < NDIRECT) (h0 : din.addrs ⟨fbn, Nat.lt_succ_of_lt h⟩ = 0) :
    appendBlock st din fbn = some (st.freeblock,
      { din with addrs := Function.update din.addrs ⟨fbn, Nat.lt_succ_of_lt h⟩ st.freeblock },
      { st with freeblock := st.freeblock + 1 }) := by
  simp only [appendBlock, dif_pos h, h0, if_true]

theorem appendBlock_direct_old {fbn : Nat} (h : fbn < NDIRECT) (h0 : din.addrs ⟨fbn, Nat.lt_succ_of_lt h⟩ ≠ 0) :
    appendBlock st din fbn = some (din.addrs ⟨fbn, Nat.lt_succ_of_lt h⟩, din, st) := by
  simp only [appendBlock, dif_pos h, h0, if_false]

/-- The first block past the direct ones: the indirect block and its first entry, both new. -/
theorem appendBlock_indirect_new (h0 : din.addrs (Fin.last NDIRECT) = 0)
    (hb : st.freeblock < FSSIZE) (he : st.img st.freeblock ⟨0, nindirect_pos⟩ = 0) :
    appendBlock st din NDIRECT = some (st.freeblock + 1,
      { din with addrs := Function.update din.addrs (Fin.last NDIRECT) st.freeblock },
      wsect { st with freeblock := st.freeblock + 2 } st.freeblock
        (Function.update (st.img st.freeblock) ⟨0, nindirect_pos⟩ (st.freeblock + 1))) := by
  simp only [appendBlock, lt_irrefl, dite_false, Nat.sub_self, h0, if_true]
  rw [dif_pos (by decide)]
  simp only [Function.update_self, rsect, if_pos hb, Option.map_some, he, if_true]

/-- A whole block appended to a file of `i < NDIRECT` blocks, in a new direct block. -/
theorem iappend_block {p : Nat → UInt8} {i : Nat} (hI : IBLOCK inum sb < FSSIZE) (hi : i < NDIRECT)
    (hsize : ((diskView sb st.img).inode inum).size = BSIZE * i)
    (h0 : ((diskView sb st.img).inode inum).addrs ⟨i, Nat.lt_succ_of_lt hi⟩ = 0)
    (hfb : st.freeblock < FSSIZE) :
    iappend st inum p BSIZE = some (putInode
      (wsect { st with freeblock := st.freeblock + 1 } st.freeblock (bcopy p (st.img st.freeblock) 0 BSIZE)) inum
      { (diskView sb st.img).inode inum with
        addrs := Function.update ((diskView sb st.img).inode inum).addrs ⟨i, Nat.lt_succ_of_lt hi⟩
          st.freeblock
        size := BSIZE * (i + 1) }) := by
  set din := (diskView sb st.img).inode inum
  have hfbn : din.size / BSIZE = i := by
    rw [hsize]; unfold BSIZE; omega
  have ha : appendBlock st din (din.size / BSIZE) = some (st.freeblock,
      { din with addrs := Function.update din.addrs ⟨i, Nat.lt_succ_of_lt hi⟩ st.freeblock },
      { st with freeblock := st.freeblock + 1 }) := by
    rw [hfbn]; exact appendBlock_direct_new hi h0
  rw [iappend_fit hI (by decide) (by rw [hsize]; unfold BSIZE; omega)
    (by rw [hfbn]; unfold MAXFILE; omega) ha hfb, hsize, Nat.mul_mod_right, Nat.mul_succ]

/-- A whole block appended to a file of `NDIRECT` blocks: a new indirect block, and a new block
in its entry `0`. -/
theorem iappend_indirect {p : Nat → UInt8} (hI : IBLOCK inum sb < FSSIZE)
    (hsize : ((diskView sb st.img).inode inum).size = BSIZE * NDIRECT)
    (h0 : ((diskView sb st.img).inode inum).addrs (Fin.last NDIRECT) = 0)
    (hfb : st.freeblock + 1 < FSSIZE) (he : st.img st.freeblock ⟨0, nindirect_pos⟩ = 0) :
    iappend st inum p BSIZE = some (putInode
      (wsect (wsect { st with freeblock := st.freeblock + 2 } st.freeblock
          (Function.update (st.img st.freeblock) ⟨0, nindirect_pos⟩ (st.freeblock + 1)))
        (st.freeblock + 1) (bcopy p (st.img (st.freeblock + 1)) 0 BSIZE)) inum
      { (diskView sb st.img).inode inum with
        addrs := Function.update ((diskView sb st.img).inode inum).addrs (Fin.last NDIRECT) st.freeblock
        size := BSIZE * (NDIRECT + 1) }) := by
  set din := (diskView sb st.img).inode inum
  have hfbn : din.size / BSIZE = NDIRECT := by
    rw [hsize, Nat.mul_div_cancel_left _ (by decide)]
  have ha : appendBlock st din (din.size / BSIZE) = some (st.freeblock + 1,
      { din with addrs := Function.update din.addrs (Fin.last NDIRECT) st.freeblock },
      wsect { st with freeblock := st.freeblock + 2 } st.freeblock
        (Function.update (st.img st.freeblock) ⟨0, nindirect_pos⟩ (st.freeblock + 1))) := by
    rw [hfbn]; exact appendBlock_indirect_new h0 (Nat.lt_of_succ_lt hfb) he
  rw [iappend_fit hI (by decide) (by rw [hsize, Nat.mul_mod_right, Nat.zero_add])
    (by rw [hfbn]; decide) ha hfb, hsize, Nat.mul_mod_right, Nat.mul_succ,
    wsect_img_of_ne (Nat.succ_ne_self _)]

/-! ### The image outside the inode written -/

theorem img_putInode (b : Nat) (w : Fin NINDIRECT) :
    (putInode st inum din).img b w =
      if b = IBLOCK inum sb ∧ w.val / 16 = slotOf inum then dinodeWord din ⟨w.val % 16, Nat.mod_lt _ (by decide)⟩
      else st.img b w := by
  by_cases hb : b = IBLOCK inum sb
  · subst hb
    simp only [putInode, wsect_img_self, writeSlot, true_and]
  · rw [putInode_img_of_ne hb, if_neg (fun h => hb h.1)]

theorem inode_wsect_of_ne {i b : Nat} {buf : Fin NINDIRECT → Nat} (h : IBLOCK i sb ≠ b) :
    (diskView sb (wsect st b buf).img).inode i = (diskView sb st.img).inode i := by
  show readSlot ((wsect st b buf).img (IBLOCK i sb)) _ = _
  rw [wsect_img_of_ne h]
  rfl

/-- The inode `ialloc` writes. -/
theorem fits_fresh {type : Nat} (h : type < 2 ^ 16) : (⟨type, 1, 0, fun _ => 0⟩ : Dinode).Fits :=
  ⟨h, show 1 < 2 ^ 16 from by decide, show 0 < 2 ^ 32 from by decide,
    fun _ => show 0 < 2 ^ 32 from by decide⟩

section PutEntry

variable {k : Nat} {p : Nat → UInt8}

/-- `putEntry` writes the entry's block and the inode's block, and no other. -/
theorem putEntry_img_of_ne {b : Nat} (hI : b ≠ IBLOCK inum sb) (hx : b ≠ dirBlock din k) :
    (putEntry st inum din k p).img b = st.img b := by
  rw [putEntry, putInode_img_of_ne hI, wsect_img_of_ne hx]

/-- The entry's block holds the entry's bytes copied over it. -/
theorem img_putEntry_self (hx : dirBlock din k ≠ IBLOCK inum sb) :
    (putEntry st inum din k p).img (dirBlock din k) =
      bcopy p (st.img (dirBlock din k)) (direntSize * k % BSIZE) direntSize := by
  rw [putEntry, putInode_img_of_ne hx, wsect_img_self]

theorem inode_putEntry_same (h : din.Fits) : (diskView sb (putEntry st inum din k p).img).inode inum = din :=
  inode_putInode_same h

theorem inode_putEntry_ne {i : Nat} (h : i ≠ inum) (hx : IBLOCK i sb ≠ dirBlock din k) :
    (diskView sb (putEntry st inum din k p).img).inode i = (diskView sb st.img).inode i := by
  rw [putEntry, inode_putInode_ne h, inode_wsect_of_ne hx]

end PutEntry

/-! ### A directory filled entry by entry -/

/-- Inode `din` is a directory of `k` entries whose blocks came from the counter, from `nmeta` to
before `fb`: block `i` of it is allocated exactly when an entry starts in it. -/
structure DirAt (k fb : Nat) (din : Dinode) : Prop where
  type : din.type = T_DIR
  nlink : din.nlink = 1
  size : din.size = direntSize * k
  addrs : ∀ i : Fin (NDIRECT + 1), (din.addrs i ≠ 0 ↔ BSIZE * i.val < direntSize * k) ∧ din.addrs i < fb
  low : ∀ i, din.addrs i ≠ 0 → nmeta ≤ din.addrs i

theorem DirAt.mono {k fb fb' : Nat} (h : DirAt k fb din) (hle : fb ≤ fb') : DirAt k fb' din :=
  ⟨h.type, h.nlink, h.size, fun i => ⟨(h.addrs i).1, Nat.lt_of_lt_of_le (h.addrs i).2 hle⟩, h.low⟩

theorem DirAt.fits {k fb : Nat} (h : DirAt k fb din) (hk : direntSize * k < 2 ^ 32) (hfb : fb ≤ 2 ^ 32) :
    din.Fits := by
  refine ⟨?_, ?_, ?_, fun i => Nat.lt_of_lt_of_le (h.addrs i).2 hfb⟩
  · rw [h.type]; decide
  · rw [h.nlink]; decide
  · rw [h.size]; exact hk

theorem dirAt_putInode {k fb : Nat} (h : DirAt k fb din) (hk : direntSize * k < 2 ^ 32)
    (hfb : fb ≤ 2 ^ 32) : DirAt k fb ((diskView sb (putInode st inum din).img).inode inum) := by
  rw [inode_putInode_same (h.fits hk hfb)]
  exact h

/-- The block of the last entry of a directory of `k + 1` entries is one of its data blocks. -/
theorem DirAt.dirBlock_mem {k fb : Nat} (h : DirAt (k + 1) fb din) (hk : direntSize * k < BSIZE * NDIRECT) :
    nmeta ≤ dirBlock din k ∧ dirBlock din k < fb := by
  have hj : direntSize * k / BSIZE < NDIRECT + 1 := by
    unfold direntSize BSIZE NDIRECT at *; omega
  rw [dirBlock, dif_pos hj]
  have hne : din.addrs ⟨_, hj⟩ ≠ 0 := (h.addrs _).1.mpr (by simp only; unfold direntSize BSIZE; omega)
  exact ⟨h.low _ hne, (h.addrs _).2⟩

theorem dirBlock_ne {k b : Nat} (h : ∀ i, din.addrs i ≠ b) (hb : b ≠ 0) : dirBlock din k ≠ b := by
  unfold dirBlock
  split
  · exact h _
  · exact hb.symm

/-- One more entry in a directory, in the block at its end: a block from `freeblock` when the
entry starts one. -/
theorem iappend_dir {k : Nat} {p : Nat → UInt8} (hI : IBLOCK inum sb < FSSIZE)
    (hk : direntSize * k < BSIZE * NDIRECT)
    (hd : DirAt k st.freeblock ((diskView sb st.img).inode inum))
    (hfb : nmeta ≤ st.freeblock) (hfb' : st.freeblock < FSSIZE) :
    ∃ din', DirAt (k + 1) (st.freeblock + if direntSize * k % BSIZE = 0 then 1 else 0) din' ∧
      (∀ i, din'.addrs i = ((diskView sb st.img).inode inum).addrs i ∨
        ((diskView sb st.img).inode inum).addrs i = 0 ∧ din'.addrs i = st.freeblock) ∧
      iappend st inum p direntSize = some (putEntry
        { st with freeblock := st.freeblock + if direntSize * k % BSIZE = 0 then 1 else 0 } inum din' k p) := by
  set din := (diskView sb st.img).inode inum with hdin
  have hsize := hd.size
  have hfbn : din.size / BSIZE < NDIRECT := by
    rw [hsize]; unfold BSIZE NDIRECT direntSize at *; omega
  have hfit : din.size % BSIZE + direntSize ≤ BSIZE := by
    rw [hsize]; unfold BSIZE direntSize; omega
  have hmax : din.size / BSIZE < MAXFILE := by unfold MAXFILE; omega
  -- the block the entry goes to
  let j : Fin (NDIRECT + 1) := ⟨din.size / BSIZE, Nat.lt_succ_of_lt hfbn⟩
  have hjv : j.val = direntSize * k / BSIZE := by simp only [j, hsize]
  have hj : ∀ i : Fin (NDIRECT + 1), i = j ↔ i.val = direntSize * k / BSIZE := fun i => by
    rw [Fin.ext_iff, hjv]
  have hblock : ∀ din' : Dinode, dirBlock din' k = din'.addrs j := fun din' => by
    rw [dirBlock, dif_pos (hjv ▸ j.isLt)]
    exact congrArg din'.addrs (Fin.ext hjv.symm)
  by_cases hz : direntSize * k % BSIZE = 0
  · -- the entry starts block `j`, which is new
    have h0 : din.addrs j = 0 := by
      by_contra hne
      have := (hd.addrs j).1.mp hne
      simp only [j, hsize] at this
      unfold BSIZE direntSize at *; omega
    refine ⟨{ din with addrs := Function.update din.addrs j st.freeblock, size := din.size + direntSize },
      ⟨hd.type, hd.nlink, by rw [hsize, Nat.mul_succ], fun i => ?_, fun i => ?_⟩, fun i => ?_, ?_⟩
    · by_cases hi : i = j
      · subst hi
        simp only [Function.update_self, if_pos hz]
        refine ⟨⟨fun _ => by simp only [j, hsize]; unfold BSIZE direntSize at *; omega,
          fun _ => by unfold nmeta at hfb; omega⟩, Nat.lt_succ_self _⟩
      · have hi' := (hj i).not.mp hi
        simp only [Function.update_of_ne hi, if_pos hz]
        refine ⟨?_, Nat.lt_succ_of_lt (hd.addrs i).2⟩
        rw [(hd.addrs i).1]
        unfold BSIZE direntSize at *; omega
    · by_cases hi : i = j
      · subst hi
        simp only [Function.update_self]
        exact fun _ => hfb
      · simp only [Function.update_of_ne hi]
        exact hd.low i
    · by_cases hi : i = j
      · subst hi
        exact .inr ⟨h0, Function.update_self _ _ _⟩
      · exact .inl (Function.update_of_ne hi _ _)
    · rw [iappend_fit hI (by decide) hfit hmax (appendBlock_direct_new hfbn h0) hfb', putEntry, hblock]
      simp only [Function.update_self, if_pos hz]
      rw [← hsize]
  · -- the entry goes to the block at the end, already allocated
    have h1 : din.addrs j ≠ 0 := by
      rw [(hd.addrs j).1]
      simp only [j, hsize]
      unfold BSIZE direntSize at *; omega
    refine ⟨{ din with size := din.size + direntSize },
      ⟨hd.type, hd.nlink, by rw [hsize, Nat.mul_succ], fun i => ?_, hd.low⟩, fun i => .inl rfl, ?_⟩
    · simp only [if_neg hz, Nat.add_zero]
      refine ⟨?_, (hd.addrs i).2⟩
      rw [(hd.addrs i).1]
      unfold BSIZE direntSize at *; omega
    · rw [iappend_fit hI (by decide) hfit hmax (appendBlock_direct_old hfbn h1)
        (Nat.lt_trans (hd.addrs j).2 hfb'), putEntry, hblock]
      simp only [if_neg hz, Nat.add_zero]
      rw [← hsize]

/-! ### The entries of the root directory, byte for byte

While the counter of blocks serves the root directory alone, its block `i` is block `nmeta + i`,
and entry `j` lies at byte `16 * j % BSIZE` of block `nmeta + 16 * j / BSIZE`.
-/

/-- The entries `main` writes into the root directory for the input names, in order: `.` and `..`,
then each file's number and short name. -/
def rootEntries (names : List (List Char)) : Nat → Dirent
  | 0 => ⟨UInt16.ofNat ROOTINO, ['.']⟩
  | 1 => ⟨UInt16.ofNat ROOTINO, ['.', '.']⟩
  | j + 2 => ⟨UInt16.ofNat (j + 2), ((names[j]?.bind shortName).getD []).take DIRSIZ⟩

/-- Entries `E 0 .. E (k - 1)` are in the image byte for byte, entry `j` at byte `16 * j % BSIZE`
of block `nmeta + 16 * j / BSIZE`. -/
def EntriesAt (img : Nat → Fin NINDIRECT → Nat) (k : Nat) (E : Nat → Dirent) : Prop :=
  ∀ j < k, ∀ i < direntSize,
    blockByte (img (nmeta + direntSize * j / BSIZE)) (direntSize * j % BSIZE + i) = direntBytes (E j) i

/-- A block of the data area, `nmeta + c`, is none of the blocks before it. -/
theorem data_ne_of_lt {b : Nat} (h : b < nmeta) (c : Nat) : nmeta + c ≠ b :=
  Nat.ne_of_gt (Nat.lt_of_lt_of_le h (Nat.le_add_right _ _))

section Entries

variable {k : Nat} {E : Nat → Dirent}

/-- Writing entry `k` into its block keeps the entries before it, which lie before it in the same
block or in earlier blocks. -/
theorem entriesAt_putEntry (h : EntriesAt st.img k E) (hx : dirBlock din k = nmeta + direntSize * k / BSIZE)
    (hI : IBLOCK inum sb < nmeta) : EntriesAt (putEntry st inum din k (direntBytes (E k))).img (k + 1) E := by
  intro j hj i hi
  have hxI : dirBlock din k ≠ IBLOCK inum sb := by
    rw [hx]
    exact data_ne_of_lt hI _
  by_cases hb : nmeta + direntSize * j / BSIZE = dirBlock din k
  · -- entry `j` is in the block just written
    have hjk : direntSize * j / BSIZE = direntSize * k / BSIZE := by rw [hx] at hb; omega
    rw [hb, img_putEntry_self hxI, blockByte_bcopy _ _ _ _ (by unfold direntSize BSIZE at *; omega)]
    by_cases hj' : j = k
    · subst hj'
      rw [if_pos (by unfold direntSize at hi ⊢; omega), Nat.add_sub_cancel_left]
    · rw [if_neg (by unfold direntSize BSIZE at *; omega), ← hb]
      exact h j (by omega) i hi
  · have hj' : j < k := by
      refine Nat.lt_of_le_of_ne (Nat.le_of_lt_succ hj) fun e => hb ?_
      rw [e, hx]
    rw [putEntry_img_of_ne (data_ne_of_lt hI _) hb]
    exact h j hj' i hi

/-- An inode written in the inode blocks keeps every entry. -/
theorem entriesAt_putInode (h : EntriesAt st.img k E) (hI : IBLOCK inum sb < nmeta) :
    EntriesAt (putInode st inum din).img k E := by
  intro j hj i hi
  rw [putInode_img_of_ne (data_ne_of_lt hI _)]
  exact h j hj i hi

/-- The root's blocks after one more entry: `nmeta + i` for its block `i`, when a new block comes
from a counter at `nmeta + 16 * k / BSIZE`. -/
theorem blocks_step {fb fb' a : Nat} {din' : Dinode} (hd : DirAt k fb din) (hd' : DirAt (k + 1) fb' din')
    (hb : ∀ i, din.addrs i ≠ 0 → din.addrs i = nmeta + i.val)
    (haddr : ∀ i, din'.addrs i = din.addrs i ∨ din.addrs i = 0 ∧ din'.addrs i = a)
    (ha : direntSize * k % BSIZE = 0 → a = nmeta + direntSize * k / BSIZE) :
    ∀ i, din'.addrs i ≠ 0 → din'.addrs i = nmeta + i.val := by
  intro i hi
  rcases haddr i with e | ⟨h0, e⟩
  · rw [e] at hi ⊢
    exact hb i hi
  · -- the new block is the one the entry starts
    have h1 := (hd'.addrs i).1.mp hi
    have h2 : ¬ BSIZE * i.val < direntSize * k := fun h => (hd.addrs i).1.mpr h h0
    unfold direntSize BSIZE at h1 h2 ha
    rw [e, ha (by omega)]
    omega

/-- The block of entry `k` of a directory whose block `i` is `nmeta + i`. -/
theorem dirBlock_of_blocks {fb : Nat} (hd : DirAt (k + 1) fb din) (hb : ∀ i, din.addrs i ≠ 0 → din.addrs i = nmeta + i.val)
    (hk : direntSize * k < BSIZE * NDIRECT) : dirBlock din k = nmeta + direntSize * k / BSIZE := by
  have hj : direntSize * k / BSIZE < NDIRECT + 1 := by
    unfold direntSize BSIZE NDIRECT at *; omega
  rw [dirBlock, dif_pos hj]
  exact hb _ ((hd.addrs _).1.mpr (by simp only; unfold direntSize BSIZE; omega))

end Entries

/-- Byte `16 * j + i` of a directory whose block `i` is `nmeta + i` is byte `16 * j % BSIZE + i` of
block `nmeta + 16 * j / BSIZE`, as the block layer reads it. -/
theorem fileByte_dir {d : Fs} {k j i : Nat}
    (haddr : ∀ i : Fin (NDIRECT + 1), BSIZE * i.val < direntSize * k → (d.inode inum).addrs i = nmeta + i.val)
    (hk : direntSize * k ≤ BSIZE * NDIRECT) (hj : j < k) (hi : i < direntSize) :
    fileByte d inum (direntSize * j + i) =
      blockByte (d.data (nmeta + direntSize * j / BSIZE)) (direntSize * j % BSIZE + i) := by
  have hlt : (direntSize * j + i) / BSIZE < NDIRECT := by unfold direntSize BSIZE NDIRECT at *; omega
  have hq : (direntSize * j + i) / BSIZE = direntSize * j / BSIZE := by unfold direntSize BSIZE at *; omega
  have hr : (direntSize * j + i) % BSIZE = direntSize * j % BSIZE + i := by unfold direntSize BSIZE at *; omega
  have ha := haddr ⟨_, Nat.lt_succ_of_lt hlt⟩ (by simp only; unfold direntSize BSIZE at *; omega)
  have hs : blockSlot ((direntSize * j + i) / BSIZE) = some (.direct ⟨_, hlt⟩) := by
    rw [blockSlot, dif_pos hlt]
  rw [fileByte, hs]
  simp only [slotData, slotVal, Fin.castSucc_mk, ha]
  rw [if_neg (data_ne_of_lt (by decide : 0 < nmeta) _)]
  simp only [hq, hr]

/-- The short name is what is left of the argument after its start is taken off. -/
theorem shortName_suffix {n s : List Char} (h : shortName n = some s) : s <:+ n := by
  have hs : (if n.take 5 = ['u', 's', 'e', 'r', '/'] then n.drop 5 else n) <:+ n := by
    split
    · exact List.drop_suffix _ _
    · exact List.suffix_refl _
  unfold shortName at h
  generalize (if n.take 5 = ['u', 's', 'e', 'r', '/'] then n.drop 5 else n) = t at h hs
  dsimp only at h
  split_ifs at h <;> cases h
  · exact (List.tail_suffix _).trans hs
  · exact hs

/-- The entries of the root directory are stored byte for byte when the names are C strings. -/
theorem rootEntries_stored {names : List (List Char)} (hc : ∀ n ∈ names, ∀ c ∈ n, c ≠ Char.ofNat 0 ∧ c.toNat < 256) :
    ∀ j, (rootEntries names j).Stored
  | 0 => show Dirent.Stored ⟨UInt16.ofNat ROOTINO, ['.']⟩ from ⟨by decide, by simp⟩
  | 1 => show Dirent.Stored ⟨UInt16.ofNat ROOTINO, ['.', '.']⟩ from ⟨by decide, by simp⟩
  | j + 2 => by
    refine ⟨List.length_take_le _ _, fun c hc' => ?_⟩
    have hc'' := List.mem_of_mem_take hc'
    cases hn : names[j]? with
    | none => simp [hn] at hc''
    | some n =>
      cases hsn : shortName n with
      | none => simp [hn, hsn] at hc''
      | some s =>
        simp only [hn, hsn, Option.bind_some, Option.getD_some] at hc''
        exact hc n (List.mem_of_getElem? hn) c ((shortName_suffix hsn).subset hc'')

/-- `main` up to the loop over the files: inodes `0` and `1` handed out, the root directory
holding `.` and `..` in block `nmeta`, and no block written but that one and the root's inode
block. -/
theorem root_spec : ∃ st, root = some st ∧ st.freeinode = ROOTINO + 1 ∧ st.freeblock = nmeta + 1 ∧
    DirAt 2 (nmeta + 1) ((diskView sb st.img).inode ROOTINO) ∧
    (∀ i, ((diskView sb st.img).inode ROOTINO).addrs i ≠ 0 →
      ((diskView sb st.img).inode ROOTINO).addrs i = nmeta + i.val) ∧
    (∀ names, EntriesAt st.img 2 (rootEntries names)) ∧
    ∀ b, b ≠ IBLOCK ROOTINO sb → b ≠ nmeta → st.img b = fun _ => 0 := by
  have hI : IBLOCK ROOTINO sb < FSSIZE := by decide
  have hb : nmeta ≤ nmeta + 1 ∧ nmeta + 1 < FSSIZE ∧ nmeta + 1 ≤ 2 ^ 32 := by decide
  -- `ialloc(T_DIR)`
  let st0 : MkState := ⟨fun _ _ => 0, 1, nmeta⟩
  let st1 := newInode st0 T_DIR
  have h1 : ialloc st0 T_DIR = some (ROOTINO, st1) := ialloc_eq hI
  have hd1 : DirAt 0 st1.freeblock ((diskView sb st1.img).inode ROOTINO) := by
    rw [show st1 = putInode _ ROOTINO _ from rfl, inode_putInode_same (fits_fresh (by decide))]
    exact ⟨rfl, rfl, rfl, fun i => ⟨by simp, show 0 < nmeta from by decide⟩, fun _ h => absurd rfl h⟩
  -- the entries `.` and `..`, both in block `nmeta`
  obtain ⟨din2, hd2, -, h2⟩ := iappend_dir (p := direntBytes ⟨UInt16.ofNat ROOTINO, ['.']⟩) hI
    (by decide) hd1 le_rfl (by decide)
  let st2 := putEntry { st1 with freeblock := nmeta + 1 } ROOTINO din2 0 (direntBytes ⟨UInt16.ofNat ROOTINO, ['.']⟩)
  have hd2' : DirAt 1 st2.freeblock ((diskView sb st2.img).inode ROOTINO) :=
    dirAt_putInode hd2 (by decide) hb.2.2
  obtain ⟨din3, hd3, -, h3⟩ := iappend_dir (p := direntBytes ⟨UInt16.ofNat ROOTINO, ['.', '.']⟩) hI
    (by decide) hd2' hb.1 hb.2.1
  have hx2 : dirBlock din2 0 = nmeta := by
    have := (show DirAt 1 (nmeta + 1) din2 from hd2).dirBlock_mem (by decide)
    omega
  have hx3 : dirBlock din3 1 = nmeta := by
    have := (show DirAt 2 (nmeta + 1) din3 from hd3).dirBlock_mem (by decide)
    omega
  let st3 := putEntry { st2 with freeblock := nmeta + 1 } ROOTINO din3 1
    (direntBytes ⟨UInt16.ofNat ROOTINO, ['.', '.']⟩)
  have hd3' : DirAt 2 (nmeta + 1) ((diskView sb st3.img).inode ROOTINO) := dirAt_putInode hd3 (by decide) hb.2.2
  have hI' : IBLOCK ROOTINO sb < nmeta := by decide
  refine ⟨st3, ?_, rfl, rfl, hd3', fun i hi => ?_, fun names => ?_, fun b hb hb' => ?_⟩
  · have h1' : ialloc ⟨fun _ _ => 0, 1, nmeta⟩ T_DIR = some (ROOTINO, st1) := h1
    simp only [root, h1', Option.bind_eq_bind, Option.bind_some, guard, if_true, h2, Option.pure_def]
    exact h3
  · -- two entries: block `0` alone, which is block `nmeta`
    have h1 := (hd3'.addrs i).1.mp hi
    have h2 := (hd3'.addrs i).2
    have h3 := hd3'.low i hi
    unfold direntSize BSIZE at h1
    omega
  · have e2 : EntriesAt st2.img 1 (rootEntries names) :=
      @entriesAt_putEntry { st1 with freeblock := nmeta + 1 } ROOTINO din2 0 (rootEntries names)
        (fun j hj => absurd hj (Nat.not_lt_zero j)) (by rw [hx2]; rfl) hI'
    exact @entriesAt_putEntry { st2 with freeblock := nmeta + 1 } ROOTINO din3 1 (rootEntries names) e2
      (by rw [hx3]; rfl) hI'
  · rw [putEntry_img_of_ne hb (hx3 ▸ hb'), putEntry_img_of_ne hb (hx2 ▸ hb')]
    show (putInode _ ROOTINO _).img b = _
    rw [putInode_img_of_ne hb]

/-- `main` after the loop over the files, when the counter of blocks is within one bitmap
block. -/
theorem fixRoot_eq (h : st.freeblock < BSIZE * 8) :
    fixRoot st = some (wsect (putInode st ROOTINO { (diskView sb st.img).inode ROOTINO with
      size := (((diskView sb st.img).inode ROOTINO).size / BSIZE + 1) * BSIZE }) sb.bmapstart
      (usedBits st.freeblock)) := by
  have hI : IBLOCK ROOTINO sb < FSSIZE := by decide
  simp only [fixRoot, rinode_eq hI, winode_eq hI, Option.bind_eq_bind, Option.bind_some, balloc,
    putInode_freeblock]
  exact if_pos h

/-- `main` after the loop over the files writes the root's inode and the bitmap block, and
nothing else. -/
theorem fixRoot_frame (h : st.freeblock < BSIZE * 8) :
    ∃ st', fixRoot st = some st' ∧
      (∀ i, i ≠ ROOTINO → IBLOCK i sb ≠ sb.bmapstart →
        (diskView sb st'.img).inode i = (diskView sb st.img).inode i) ∧
      ∀ b, b ≠ IBLOCK ROOTINO sb → b ≠ sb.bmapstart → st'.img b = st.img b := by
  refine ⟨_, fixRoot_eq h, fun i hi hb => ?_, fun b hb hb' => ?_⟩
  · rw [inode_wsect_of_ne hb, inode_putInode_ne hi]
  · rw [wsect_img_of_ne hb', putInode_img_of_ne hb]

/-- One empty file, inode `k`: its inode from `freeinode`, and its entry, its number and its
short name, at the end of the root directory. -/
theorem addFile_empty {k : Nat} {name s : List Char} (hs : shortName name = some s)
    (hfi : st.freeinode = k) (hk1 : ROOTINO < k) (hI : IBLOCK k sb < FSSIZE)
    (hk : direntSize * k < BSIZE * NDIRECT)
    (hroot : DirAt k st.freeblock ((diskView sb st.img).inode ROOTINO))
    (hfb : nmeta ≤ st.freeblock) (hfb' : st.freeblock < FSSIZE) :
    ∃ din, DirAt (k + 1) (st.freeblock + if direntSize * k % BSIZE = 0 then 1 else 0) din ∧
      (∀ i, din.addrs i = ((diskView sb st.img).inode ROOTINO).addrs i ∨
        ((diskView sb st.img).inode ROOTINO).addrs i = 0 ∧ din.addrs i = st.freeblock) ∧
      addFile st (name, []) = some (putEntry
        { newInode st T_FILE with freeblock := st.freeblock + if direntSize * k % BSIZE = 0 then 1 else 0 }
        ROOTINO din k (direntBytes ⟨UInt16.ofNat k, s.take DIRSIZ⟩)) := by
  -- `ialloc(T_FILE)`: inode `k`
  have h1 : ialloc st T_FILE = some (k, newInode st T_FILE) := by
    rw [ialloc_eq (by rw [hfi]; exact hI), hfi]
  have hroot1 : DirAt k (newInode st T_FILE).freeblock ((diskView sb (newInode st T_FILE).img).inode ROOTINO) := by
    rw [newInode, inode_putInode_ne (by omega)]
    exact hroot
  -- its entry in the root directory
  obtain ⟨din, hd, haddr, h2⟩ := iappend_dir (p := direntBytes ⟨UInt16.ofNat k, s.take DIRSIZ⟩)
    (by decide) hk hroot1 hfb hfb'
  refine ⟨din, hd, fun i => ?_, ?_⟩
  · rw [newInode, inode_putInode_ne (by omega)] at haddr
    exact haddr i
  · simp only [addFile, hs, h1, h2, Option.bind_eq_bind, Option.bind_some, List.foldlM_nil, Option.pure_def]
    rfl

/-! ### Input files -/

/-- A lower-case letter. -/
def letter (x : Nat) : Char := Char.ofNat (97 + x % 26)

theorem letter_toNat (x : Nat) : (letter x).toNat = 97 + x % 26 := by
  rw [letter, Char.toNat_ofNat, if_pos]
  exact Or.inl (by omega)

/-- The name `f` and two letters: `fileName i` for `i < 676` are pairwise distinct names that
`main` keeps as they are. -/
def fileName (i : Nat) : List Char := ['f', letter (i / 26), letter i]

theorem shortName_fileName (i : Nat) : shortName (fileName i) = some (fileName i) := by
  have hl : ∀ x, letter x ≠ '/' := fun x h => by
    have := congrArg Char.toNat h
    rw [letter_toNat] at this
    exact absurd this (by simp; omega)
  simp [shortName, fileName]
  exact ⟨fun h => hl _ h.symm, fun h => hl _ h.symm⟩

theorem fileName_injOn : Set.InjOn fileName (Set.Iio 676) := by
  intro i hi j hj h
  simp only [fileName, List.cons.injEq, and_true, true_and] at h
  have h1 := congrArg Char.toNat h.1
  have h2 := congrArg Char.toNat h.2
  simp only [letter_toNat] at h1 h2
  simp only [Set.mem_Iio] at hi hj
  omega

/-! ### More files than inodes

Nothing bounds `freeinode` by `NINODES`.  Inode `432` is in slot `0` of block
`IBLOCK(432) = 59 = nmeta + 13`, past the `ninodeblocks = 13` inode blocks; with a first file of
13 blocks that block is the first file's indirect block, and `winode(432)` writes the type
`T_FILE = 2` of inode `432` into its entry `0`.
-/

/-- Inode `432`: the first whose slot starts block `nmeta + 13`. -/
def overflowInum : Nat := (nmeta + 13 - sb.inodestart) * IPB

/-- `mkfs fs.img fa fb …`: a file of 13 blocks (`read` returns `BSIZE` bytes 13 times), then
empty files up to inode `432`, all under names `fileName i`. -/
def overflowFiles : List (List Char × List (List UInt8)) :=
  (fileName 0, List.replicate (NDIRECT + 1) (List.replicate BSIZE 0)) ::
    ((List.range' 1 (overflowInum - 2)).map fileName).map (·, [])

/-- The first file after `i` of its blocks: its block `k` is block `nmeta + 1 + k` of the disk,
block `nmeta` being the root directory's; with 13 blocks, `addrs[NDIRECT] = nmeta + 13` is its
indirect block. -/
def bigAt (i : Nat) : Dinode := ⟨T_FILE, 1, BSIZE * i, fun k => if k.val < i then nmeta + 1 + k.val else 0⟩

theorem bigAt_succ {i : Nat} (hi : i < NDIRECT + 1) :
    { bigAt i with
      addrs := Function.update (bigAt i).addrs ⟨i, hi⟩ (nmeta + 1 + i)
      size := BSIZE * (i + 1) } = bigAt (i + 1) := by
  simp only [bigAt, Dinode.mk.injEq, true_and]
  funext m
  by_cases hm : m = ⟨i, hi⟩
  · subst hm
    simp
  · have : m.val ≠ i := fun h => hm (Fin.ext h)
    rw [Function.update_of_ne hm]
    by_cases hlt : m.val < i
    · rw [if_pos hlt, if_pos (by omega)]
    · rw [if_neg hlt, if_neg (by omega)]

theorem bigAt_fits {i : Nat} (hi : i < NDIRECT + 2) : (bigAt i).Fits := by
  refine ⟨show 2 < 2 ^ 16 from by decide, show 1 < 2 ^ 16 from by decide, ?_, fun k => ?_⟩
  · show BSIZE * i < 2 ^ 32
    unfold BSIZE; unfold NDIRECT at hi; omega
  · show (if k.val < i then nmeta + 1 + k.val else 0) < 2 ^ 32
    have hk := k.isLt
    have hm : nmeta = 46 := rfl
    unfold NDIRECT at hk
    split <;> omega

/-- `mkfs` on `overflowFiles` with `i` blocks of the first file written. -/
structure BigAt (i : Nat) (st : MkState) : Prop where
  freeinode : st.freeinode = 3
  freeblock : st.freeblock = nmeta + 1 + i
  root : DirAt 3 (nmeta + 1) ((diskView sb st.img).inode ROOTINO)
  file : (diskView sb st.img).inode 2 = bigAt i
  entry : st.img (nmeta + 13) ⟨0, nindirect_pos⟩ = 0

/-- `mkfs` on `overflowFiles` with the inodes below `k` handed out: the root directory has `k`
entries, in blocks other than the first file's indirect block, and entry `0` of that block is
overwritten once inode `overflowInum` is. -/
structure OverflowAt (k : Nat) (st : MkState) : Prop where
  freeinode : st.freeinode = k
  freeblock : st.freeblock = nmeta + 15 + direntSize * (k - 1) / BSIZE
  root : DirAt k st.freeblock ((diskView sb st.img).inode ROOTINO)
  hole : ∀ i, ((diskView sb st.img).inode ROOTINO).addrs i ≠ nmeta + 13
  file : (diskView sb st.img).inode 2 = bigAt (NDIRECT + 1)
  entry : st.img (nmeta + 13) ⟨0, nindirect_pos⟩ = if k ≤ overflowInum then nmeta + 14 else T_FILE

/-- A direct block of the first file. -/
theorem bigAt_step {i : Nat} {buf : List UInt8} (hbuf : buf.length = BSIZE) (hi : i < NDIRECT)
    (h : BigAt i st) : ∃ st', iappend st 2 (fun i => buf.getD i 0) buf.length = some st' ∧ BigAt (i + 1) st' := by
  have hm : nmeta = 46 := rfl
  have hsize : ((diskView sb st.img).inode 2).size = BSIZE * i := by rw [h.file]; rfl
  have h0 : ((diskView sb st.img).inode 2).addrs ⟨i, Nat.lt_succ_of_lt hi⟩ = 0 := by
    rw [h.file]; simp [bigAt]
  have hfb : st.freeblock < FSSIZE := by
    rw [h.freeblock]; unfold FSSIZE; unfold NDIRECT at hi; omega
  have hfbI : st.freeblock ≠ IBLOCK ROOTINO sb := by
    rw [h.freeblock, show IBLOCK ROOTINO sb = 32 from rfl]
    omega
  rw [hbuf]
  refine ⟨_, iappend_block (by decide) hi hsize h0 hfb, h.freeinode, ?_, ?_, ?_, ?_⟩
  · show st.freeblock + 1 = _
    rw [h.freeblock]
    omega
  · rw [inode_putInode_ne (by decide), inode_wsect_of_ne hfbI.symm]
    exact h.root
  · rw [h.file, h.freeblock, bigAt_succ, inode_putInode_same (bigAt_fits (by omega))]
  · -- the block written is below the indirect block to come
    rw [putInode_img_of_ne (by decide), wsect_img_of_ne (by rw [h.freeblock]; unfold NDIRECT at hi; omega)]
    exact h.entry

/-- The first file's block `NDIRECT`: its indirect block, and a block in entry `0` of it. -/
theorem bigAt_last {buf : List UInt8} (hbuf : buf.length = BSIZE) (h : BigAt NDIRECT st) :
    ∃ st', iappend st 2 (fun i => buf.getD i 0) buf.length = some st' ∧ OverflowAt 3 st' := by
  have hsize : ((diskView sb st.img).inode 2).size = BSIZE * NDIRECT := by rw [h.file]; rfl
  have h0 : ((diskView sb st.img).inode 2).addrs (Fin.last NDIRECT) = 0 := by
    rw [h.file]; simp [bigAt]
  have hfb : st.freeblock + 1 < FSSIZE := by rw [h.freeblock]; decide
  have he : st.img st.freeblock ⟨0, nindirect_pos⟩ = 0 := by rw [h.freeblock]; exact h.entry
  rw [hbuf]
  refine ⟨_, iappend_indirect (by decide) hsize h0 hfb he, h.freeinode, ?_, ?_, fun i => ?_, ?_, ?_⟩
  · simp only [putInode_freeblock, wsect_freeblock, h.freeblock]
    rfl
  · rw [inode_putInode_ne (by decide), inode_wsect_of_ne (by rw [h.freeblock]; decide),
      inode_wsect_of_ne (by rw [h.freeblock]; decide)]
    exact h.root.mono (by simp only [putInode_freeblock, wsect_freeblock, h.freeblock]; decide)
  · -- the root's one block is block `nmeta`
    rw [inode_putInode_ne (by decide), inode_wsect_of_ne (by rw [h.freeblock]; decide),
      inode_wsect_of_ne (by rw [h.freeblock]; decide)]
    show ((diskView sb st.img).inode ROOTINO).addrs i ≠ _
    have := (h.root.addrs i).2
    omega
  · rw [h.file, h.freeblock, show Fin.last NDIRECT = ⟨NDIRECT, by decide⟩ from rfl, bigAt_succ,
      inode_putInode_same (bigAt_fits (by decide))]
  · have e : nmeta + 13 = st.freeblock := by rw [h.freeblock]; rfl
    rw [putInode_img_of_ne (by decide), wsect_img_of_ne (by rw [h.freeblock]; decide), e,
      wsect_img_self, Function.update_self, h.freeblock]
    rfl

/-- The first file, after the root directory. -/
theorem overflow_first {st : MkState} {name : List Char} (hs : shortName name = some name)
    (hfi : st.freeinode = ROOTINO + 1) (hfb : st.freeblock = nmeta + 1)
    (hroot : DirAt 2 (nmeta + 1) ((diskView sb st.img).inode ROOTINO))
    (hzero : ∀ b, b ≠ IBLOCK ROOTINO sb → b ≠ nmeta → st.img b = fun _ => 0) :
    ∃ st', addFile st (name, List.replicate (NDIRECT + 1) (List.replicate BSIZE 0)) = some st' ∧
      OverflowAt 3 st' := by
  -- `ialloc(T_FILE)`: inode `2`
  have h1 : ialloc st T_FILE = some (2, newInode st T_FILE) := by
    rw [ialloc_eq (by rw [hfi]; decide), hfi]
    rfl
  have hrootF : DirAt 2 (newInode st T_FILE).freeblock ((diskView sb (newInode st T_FILE).img).inode ROOTINO) := by
    rw [newInode, inode_putInode_ne (by rw [hfi]; decide)]
    exact hfb ▸ hroot
  -- its entry in the root directory, in block `nmeta`
  obtain ⟨din, hd, -, h2⟩ := iappend_dir (p := direntBytes ⟨UInt16.ofNat 2, name.take DIRSIZ⟩) (by decide) (by decide) hrootF
    (by rw [newInode, putInode_freeblock, hfb]; decide) (by rw [newInode, putInode_freeblock, hfb]; decide)
  have hfb0 : (newInode st T_FILE).freeblock + (if direntSize * 2 % BSIZE = 0 then 1 else 0) = nmeta + 1 := by
    rw [newInode, putInode_freeblock, hfb]; rfl
  have hx : dirBlock din 2 = nmeta := by
    have := (hfb0 ▸ hd).dirBlock_mem (by decide)
    omega
  let st0 := putEntry { newInode st T_FILE with
    freeblock := (newInode st T_FILE).freeblock + if direntSize * 2 % BSIZE = 0 then 1 else 0 } ROOTINO din 2
    (direntBytes ⟨UInt16.ofNat 2, name.take DIRSIZ⟩)
  have hB0 : BigAt 0 st0 := by
    refine ⟨by simp [st0, newInode, hfi, ROOTINO], hfb0, dirAt_putInode (hfb0 ▸ hd) (by decide) (by decide), ?_, ?_⟩
    · show (diskView sb (putEntry _ ROOTINO din 2 _).img).inode 2 = _
      rw [inode_putEntry_ne (by decide) (by rw [hx]; decide)]
      show (diskView sb (putInode _ st.freeinode _).img).inode 2 = _
      rw [show st.freeinode = 2 from hfi, inode_putInode_same (fits_fresh (by decide))]
      simp [bigAt]
    · show (putEntry _ ROOTINO din 2 _).img _ _ = _
      rw [putEntry_img_of_ne (by decide) (by rw [hx]; decide)]
      show (putInode _ st.freeinode _).img _ _ = _
      rw [putInode_img_of_ne (by rw [hfi]; decide), hzero _ (by decide) (by decide)]
  -- its blocks: `NDIRECT` direct ones, then the first through the indirect block
  obtain ⟨stB, hB, hBig⟩ := @Scan.foldlM_replicate_inv (List UInt8) MkState BigAt
    (fun st buf => iappend st 2 (fun i => buf.getD i 0) buf.length) (List.replicate BSIZE 0) NDIRECT
    (fun _ _ hi hP => bigAt_step List.length_replicate hi hP) st0 hB0
  obtain ⟨stO, hO, hOv⟩ := bigAt_last (show (List.replicate BSIZE (0 : UInt8)).length = BSIZE from
    List.length_replicate) hBig
  refine ⟨stO, ?_, hOv⟩
  simp only [addFile, hs, h1, h2, Option.bind_eq_bind, Option.bind_some, List.replicate_succ',
    List.foldlM_append]
  rw [hB]
  simp only [Option.bind_some, List.foldlM_cons, hO, List.foldlM_nil]
  rfl

/-- **Loop rule** for `main`'s loop over empty files: pass `j` adds the file `names[j]`. -/
theorem addFiles_inv (P : Nat → MkState → Prop) (names : List (List Char))
    (hf : ∀ j st (hj : j < names.length), P j st → ∃ st', addFile st (names[j], []) = some st' ∧ P (j + 1) st')
    (h : P 0 st) : ∃ st', (names.map (·, [])).foldlM addFile st = some st' ∧ P names.length st' := by
  have := Scan.foldlM_getElem_inv P (f := addFile) (l := names.map (·, [])) (fun j b hj hP => by
    rw [List.getElem_map]
    rw [List.length_map] at hj
    exact hf j b hj hP) h
  rwa [List.length_map] at this

/-- One empty file: its inode, and its entry in the root directory. -/
theorem overflow_step {k : Nat} {name s : List Char} (hs : shortName name = some s) (h : OverflowAt k st)
    (hk3 : 3 ≤ k) (hk : k ≤ overflowInum) :
    ∃ st', addFile st (name, []) = some st' ∧ OverflowAt (k + 1) st' := by
  obtain ⟨hfi, hfb, hroot, hhole, hfile, hentry⟩ := h
  have hov : overflowInum = 432 := rfl
  have hm : nmeta = 46 := rfl
  have hins : sb.inodestart = 32 := rfl
  have hfb' : st.freeblock < FSSIZE := by
    rw [hfb]; unfold direntSize BSIZE FSSIZE; omega
  have hI : IBLOCK k sb < FSSIZE := by
    unfold IBLOCK IPB BSIZE FSSIZE; omega
  have hk' : direntSize * k < BSIZE * NDIRECT := by unfold direntSize BSIZE NDIRECT; omega
  have hfb0 : nmeta ≤ st.freeblock := by rw [hfb]; unfold direntSize BSIZE; omega
  obtain ⟨din, hd, haddr, h2⟩ := addFile_empty hs hfi (by unfold ROOTINO; omega) hI hk' hroot hfb0 hfb'
  -- the root's blocks stay off the first file's indirect block: a new one is past it
  have hhole' : ∀ i, din.addrs i ≠ nmeta + 13 := fun i => by
    rcases haddr i with e | ⟨-, e⟩
    · rw [e]; exact hhole i
    · rw [e, hfb]; unfold direntSize BSIZE; omega
  have hx : nmeta ≤ dirBlock din k := (hd.dirBlock_mem hk').1
  refine ⟨_, h2, by simp [newInode, hfi], ?_, ?_, fun i => ?_, ?_, ?_⟩
  · show st.freeblock + _ = _
    rw [hfb]
    unfold direntSize BSIZE
    split <;> omega
  · have hb : st.freeblock + (if direntSize * k % BSIZE = 0 then 1 else 0) ≤ 2 ^ 32 := by
      unfold FSSIZE at hfb'; split <;> omega
    exact dirAt_putInode hd (by unfold direntSize; omega) hb
  · rw [inode_putEntry_same (hd.fits (by unfold direntSize; omega) (by unfold FSSIZE at hfb'; split <;> omega))]
    exact hhole' i
  · rw [inode_putEntry_ne (by decide) (by unfold IBLOCK IPB BSIZE; omega)]
    show (diskView sb (putInode _ st.freeinode _).img).inode 2 = _
    rw [inode_putInode_ne (by omega)]
    exact hfile
  · rw [putEntry_img_of_ne (by decide) (dirBlock_ne hhole' (by omega)).symm]
    show (putInode _ st.freeinode _).img _ _ = _
    rw [img_putInode, hfi]
    by_cases hkk : k = overflowInum
    · -- inode `432` is written over entry `0` of the first file's indirect block
      subst hkk
      rw [if_pos (by decide)]
      decide
    · have hslot : ¬(nmeta + 13 = IBLOCK k sb ∧ (⟨0, nindirect_pos⟩ : Fin NINDIRECT).val / 16 = slotOf k) := by
        unfold IBLOCK slotOf IPB BSIZE
        simp only [Nat.zero_div]
        omega
      rw [if_neg hslot, hentry, if_pos hk, if_pos (by omega)]

/-- Empty files, one after the other. -/
theorem overflow_run (names : List (List Char)) (hn : names.length + 2 ≤ overflowInum)
    (hs : ∀ n ∈ names, shortName n = some n) (h : OverflowAt 3 st) :
    ∃ st', (names.map (·, [])).foldlM addFile st = some st' ∧ OverflowAt (3 + names.length) st' :=
  addFiles_inv (fun j st => OverflowAt (3 + j) st) names (fun j _ hj hP =>
    overflow_step (k := 3 + j) (hs _ (List.getElem_mem hj)) hP (Nat.le_add_right 3 j) (by omega)) h

/-- With `overflowFiles`, `mkfs` succeeds, and in the image it writes the first file's indirect
block holds block `2`, the first log block, in its entry `0`: the disk the kernel boots from
breaks the block layer's invariant before any system call. -/
theorem mkfs_overflow_refs_log_block :
    ∃ st, mkfs overflowFiles = some st ∧
      Refs sb (diskView sb st.img) 2 (.entry ⟨0, nindirect_pos⟩) 2 ∧ 2 < sb.dataStart ∧
      ¬ FsOk sb (diskView sb st.img) := by
  obtain ⟨stR, hR, hfi, hfb, hroot, -, -, hzero⟩ := root_spec
  obtain ⟨st3, h3, hov3⟩ := overflow_first (shortName_fileName 0) hfi hfb hroot hzero
  obtain ⟨stE, hE, hovE⟩ := overflow_run ((List.range' 1 (overflowInum - 2)).map fileName)
    (by simp; decide) (fun n hn => by
      obtain ⟨i, -, rfl⟩ := List.mem_map.mp hn
      exact shortName_fileName i) hov3
  have hfbE : stE.freeblock < BSIZE * 8 := by rw [hovE.freeblock]; simp; decide
  obtain ⟨stF, hF, hinode, himg⟩ := fixRoot_frame hfbE
  -- `fix size of root inode dir` and the bitmap write neither inode `2` nor block `nmeta + 13`
  have hfile : (diskView sb stF.img).inode 2 = bigAt (NDIRECT + 1) := by
    rw [hinode 2 (by decide) (by decide)]
    exact hovE.file
  have hrefs : Refs sb (diskView sb stF.img) 2 (.entry ⟨0, nindirect_pos⟩) 2 := by
    refine ⟨⟨by decide, by rw [hfile]; decide⟩, by decide, ?_⟩
    show slotVal stF.img _ _ = _
    rw [hfile, slotVal, if_neg (by decide)]
    show stF.img (nmeta + 13) _ = _
    rw [himg (nmeta + 13) (by decide) (by decide), hovE.entry, if_neg (by simp; decide)]
    rfl
  refine ⟨stF, ?_, hrefs, by decide, fun hok => absurd (hok.refs_data hrefs).1 (by decide)⟩
  simp only [mkfs, overflowFiles, hR, Option.bind_eq_bind, Option.bind_some, List.foldlM_cons]
  rw [h3, Option.bind_some, hE, Option.bind_some, hF]

/-! ### The root directory of empty files

With empty input files, only the root directory takes blocks: its block `i` is block `nmeta + i`
and its entries are in the image byte for byte, which the kernel reads back as the names
(`mkfs_root_entries`).  `fix size of root inode dir` rounds the root's size up with
`(size / BSIZE + 1) * BSIZE`: a size that is already a multiple of `BSIZE` gains a whole block that
`iappend` never allocated.  With 62 input files the root holds 64 entries of 16 bytes, exactly one
block, and its size becomes two blocks while `addrs[1] = 0` (`mkfs_root_size_past_blocks`).
-/

/-- `mkfs` on the empty files `names` with the inodes below `k` handed out: the root directory has
`k` entries, its block `i` is block `nmeta + i`, and its entries are in the image. -/
structure EmptyAt (names : List (List Char)) (k : Nat) (st : MkState) : Prop where
  freeinode : st.freeinode = k
  freeblock : st.freeblock = nmeta + 1 + direntSize * (k - 1) / BSIZE
  root : DirAt k st.freeblock ((diskView sb st.img).inode ROOTINO)
  blocks : ∀ i, ((diskView sb st.img).inode ROOTINO).addrs i ≠ 0 →
    ((diskView sb st.img).inode ROOTINO).addrs i = nmeta + i.val
  entries : EntriesAt st.img k (rootEntries names)

/-- One more empty file, within `NINODES`: the file `names[k - 2]`, inode `k`. -/
theorem empty_step {names : List (List Char)} {k : Nat} {name s : List Char} (hname : names[k - 2]? = some name)
    (hs : shortName name = some s) (h : EmptyAt names k st) (hk2 : 2 ≤ k) (hk : k < NINODES) :
    ∃ st', addFile st (name, []) = some st' ∧ EmptyAt names (k + 1) st' := by
  have hm : nmeta = 46 := rfl
  have hins : sb.inodestart = 32 := rfl
  unfold NINODES at hk
  have hfb : st.freeblock = nmeta + 1 + direntSize * (k - 1) / BSIZE := h.freeblock
  have hfb0 : nmeta ≤ st.freeblock := by rw [hfb]; unfold direntSize BSIZE; omega
  have hfb' : st.freeblock < FSSIZE := by rw [hfb]; unfold direntSize BSIZE FSSIZE; omega
  have hI : IBLOCK k sb < FSSIZE := by unfold IBLOCK IPB BSIZE FSSIZE; omega
  have hIk : IBLOCK k sb < nmeta := by unfold IBLOCK IPB BSIZE; omega
  have hk' : direntSize * k < BSIZE * NDIRECT := by unfold direntSize BSIZE NDIRECT; omega
  obtain ⟨din, hd, haddr, h2⟩ := addFile_empty hs h.freeinode (by unfold ROOTINO; omega) hI hk' h.root hfb0 hfb'
  have hb : st.freeblock + (if direntSize * k % BSIZE = 0 then 1 else 0) ≤ 2 ^ 32 := by
    unfold FSSIZE at hfb'; split <;> omega
  have hfits : din.Fits := hd.fits (by unfold direntSize; omega) hb
  -- a new block of the root comes from the counter, which the root alone has moved
  have hblocks : ∀ i, din.addrs i ≠ 0 → din.addrs i = nmeta + i.val :=
    blocks_step h.root hd h.blocks haddr (fun hz => by rw [hfb]; unfold direntSize BSIZE at hz ⊢; omega)
  have hE : rootEntries names k = ⟨UInt16.ofNat k, s.take DIRSIZ⟩ := by
    obtain ⟨j, rfl⟩ : ∃ j, k = j + 2 := ⟨k - 2, by omega⟩
    simp only [Nat.add_sub_cancel] at hname
    simp only [rootEntries, hname, Option.bind_some, hs, Option.getD_some]
  refine ⟨_, h2, by simp [newInode, h.freeinode], ?_, ?_, ?_, ?_⟩
  · -- the counter moves exactly when the entry starts a block
    show st.freeblock + _ = _
    rw [hfb]
    unfold direntSize BSIZE
    split <;> omega
  · exact dirAt_putInode hd (by unfold direntSize; omega) hb
  · rw [inode_putEntry_same hfits]
    exact hblocks
  · -- the file's inode goes to an inode block, its entry to the root's block
    have hnew : EntriesAt (newInode st T_FILE).img k (rootEntries names) :=
      entriesAt_putInode h.entries (by rw [h.freeinode]; exact hIk)
    have := @entriesAt_putEntry { newInode st T_FILE with
      freeblock := st.freeblock + if direntSize * k % BSIZE = 0 then 1 else 0 } ROOTINO din k (rootEntries names)
      hnew (dirBlock_of_blocks hd hblocks hk') (by decide)
    rw [hE] at this
    exact this

/-- Empty files after the root directory. -/
theorem empty_run (names : List (List Char)) (hn : 2 + names.length ≤ NINODES)
    (hs : ∀ n ∈ names, (shortName n).isSome) (h : EmptyAt names 2 st) :
    ∃ st', (names.map (·, [])).foldlM addFile st = some st' ∧ EmptyAt names (2 + names.length) st' :=
  addFiles_inv (fun j st => EmptyAt names (2 + j) st) names (fun j _ hj hP => by
    obtain ⟨s, hs'⟩ := Option.isSome_iff_exists.mp (hs _ (List.getElem_mem hj))
    exact empty_step (k := 2 + j) (by simp [hj]) hs' hP (Nat.le_add_right 2 j) (by omega)) h

/-- `fix size of root inode dir` gives the root its rounded size and keeps its blocks; no other
block but the bitmap changes. -/
theorem fixRoot_root (h : st.freeblock < BSIZE * 8)
    (hf : ({ (diskView sb st.img).inode ROOTINO with
      size := (((diskView sb st.img).inode ROOTINO).size / BSIZE + 1) * BSIZE } : Dinode).Fits) :
    ∃ st', fixRoot st = some st' ∧
      (diskView sb st'.img).inode ROOTINO = { (diskView sb st.img).inode ROOTINO with
        size := (((diskView sb st.img).inode ROOTINO).size / BSIZE + 1) * BSIZE } ∧
      ∀ b, b ≠ IBLOCK ROOTINO sb → b ≠ sb.bmapstart → st'.img b = st.img b := by
  refine ⟨_, fixRoot_eq h, ?_, fun b hb hb' => ?_⟩
  · rw [inode_wsect_of_ne (by decide), inode_putInode_same hf]
  · rw [wsect_img_of_ne hb', putInode_img_of_ne hb]

/-- The root after a run of empty files fits `struct dinode` once its size is rounded up. -/
theorem EmptyAt.fits_rounded {names : List (List Char)} {k : Nat} (h : EmptyAt names k st) (hk : k ≤ NINODES) :
    ({ (diskView sb st.img).inode ROOTINO with
      size := (((diskView sb st.img).inode ROOTINO).size / BSIZE + 1) * BSIZE } : Dinode).Fits := by
  have hm : nmeta = 46 := rfl
  unfold NINODES at hk
  have hfits := h.root.fits (by unfold direntSize; omega) (by rw [h.freeblock]; unfold direntSize BSIZE; omega)
  refine ⟨hfits.1, hfits.2.1, ?_, hfits.2.2.2⟩
  show (((diskView sb st.img).inode ROOTINO).size / BSIZE + 1) * BSIZE < 2 ^ 32
  rw [h.root.size]
  unfold direntSize BSIZE
  omega

/-- `mkfs` of empty files, within `NINODES`: the root directory and the files, then `fix size of
root inode dir`, which rounds the root's size and writes no block of the data area. -/
theorem mkfs_empty (names : List (List Char)) (hs : ∀ n ∈ names, (shortName n).isSome)
    (hn : names.length + 2 ≤ NINODES) :
    ∃ stE st, mkfs (names.map (·, [])) = some st ∧ EmptyAt names (2 + names.length) stE ∧
      (diskView sb st.img).inode ROOTINO = { (diskView sb stE.img).inode ROOTINO with
        size := (((diskView sb stE.img).inode ROOTINO).size / BSIZE + 1) * BSIZE } ∧
      ∀ b, b ≠ IBLOCK ROOTINO sb → b ≠ sb.bmapstart → st.img b = stE.img b := by
  obtain ⟨stR, hR, hfi, hfb, hroot, hblk, hent, -⟩ := root_spec
  obtain ⟨stE, hE, hemp⟩ := empty_run names (by omega) hs ⟨hfi, hfb, hfb ▸ hroot, hblk, hent names⟩
  have hn' : names.length + 2 ≤ 200 := hn
  have hm : nmeta = 46 := rfl
  have hfbE : stE.freeblock < BSIZE * 8 := by
    rw [hemp.freeblock]; unfold direntSize BSIZE; omega
  obtain ⟨stF, hF, hrootF, himg⟩ := fixRoot_root hfbE (hemp.fits_rounded (by omega))
  refine ⟨stE, stF, ?_, hemp, hrootF, himg⟩
  simp only [mkfs, hR, hE, Option.bind_eq_bind, Option.bind_some]
  exact hF

/-- `mkfs` with empty input files whose root entries fill whole blocks (62 files, or 126, or 190)
writes a root directory one block larger than the blocks it maps: its size is
`BSIZE * (b + 1)` where `addrs[0 .. b]` are its only blocks, so the kernel's `readi` of the root at
offset `BSIZE * b` reaches `bmap` of a block that was never allocated. -/
theorem mkfs_root_size_past_blocks (names : List (List Char)) (hs : ∀ n ∈ names, (shortName n).isSome)
    (hn : names.length + 2 ≤ NINODES) (hfull : direntSize * (names.length + 2) % BSIZE = 0) :
    ∃ st, mkfs (names.map (·, [])) = some st ∧
      ((diskView sb st.img).inode ROOTINO).size = BSIZE * (direntSize * (names.length + 2) / BSIZE + 1) ∧
      ∀ i : Fin (NDIRECT + 1), ((diskView sb st.img).inode ROOTINO).addrs i ≠ 0 ↔
        i.val < direntSize * (names.length + 2) / BSIZE := by
  -- the root after its entries, and after `fix size of root inode dir`
  obtain ⟨stE, stF, hF, hemp, hrootF, -⟩ := mkfs_empty names hs hn
  have hsize : ((diskView sb stE.img).inode ROOTINO).size = direntSize * (names.length + 2) := by
    rw [hemp.root.size, Nat.add_comm 2]
  refine ⟨stF, hF, ?_, fun i => ?_⟩
  · rw [hrootF]
    show (((diskView sb stE.img).inode ROOTINO).size / BSIZE + 1) * BSIZE = _
    rw [hsize, Nat.mul_comm]
  · rw [hrootF]
    show ((diskView sb stE.img).inode ROOTINO).addrs i ≠ 0 ↔ _
    rw [(hemp.root.addrs i).1, Nat.add_comm 2]
    unfold BSIZE direntSize at *
    omega

/-- 62 files named `faa`, `fab`, …: pairwise distinct names without `/`. -/
theorem mkfs_root_size_past_blocks_fileNames :
    ((List.range 62).map fileName).Nodup ∧
    (∀ n ∈ (List.range 62).map fileName, (shortName n).isSome) ∧
    ((List.range 62).map fileName).length + 2 ≤ NINODES ∧
    direntSize * (((List.range 62).map fileName).length + 2) % BSIZE = 0 ∧
    ∃ st, mkfs (((List.range 62).map fileName).map (·, [])) = some st ∧
      ((diskView sb st.img).inode ROOTINO).size = 2 * BSIZE ∧
      ∀ i : Fin (NDIRECT + 1), ((diskView sb st.img).inode ROOTINO).addrs i ≠ 0 ↔ i.val = 0 := by
  have hs : ∀ n ∈ (List.range 62).map fileName, (shortName n).isSome := fun n hn => by
    obtain ⟨i, -, rfl⟩ := List.mem_map.mp hn
    rw [shortName_fileName]
    rfl
  have hlen : ((List.range 62).map fileName).length = 62 := by simp
  have hn : ((List.range 62).map fileName).length + 2 ≤ NINODES := by rw [hlen]; decide
  have hfull : direntSize * (((List.range 62).map fileName).length + 2) % BSIZE = 0 := by rw [hlen]; decide
  obtain ⟨st, h, hsize, haddr⟩ := mkfs_root_size_past_blocks _ hs hn hfull
  refine ⟨(List.nodup_range).map_on fun i hi j hj => fileName_injOn
    (Set.mem_Iio.mpr (by simp at hi; omega)) (Set.mem_Iio.mpr (by simp at hj; omega)), hs, hn, hfull,
    st, h, ?_, fun i => ?_⟩
  · rw [hsize, hlen]
    rfl
  · rw [haddr, hlen]
    unfold direntSize BSIZE
    omega

/-- **Names in the root directory.** For empty input files whose names are C strings without `/`,
within `NINODES` inodes, `mkfs` succeeds, and entry `j` of the root directory as the kernel reads
it through `bmap` is `.`, `..`, then each file's number and short name, in the order of the
arguments. -/
theorem mkfs_root_entries (names : List (List Char)) (hs : ∀ n ∈ names, (shortName n).isSome)
    (hc : ∀ n ∈ names, ∀ c ∈ n, c ≠ Char.ofNat 0 ∧ c.toNat < 256) (hn : names.length + 2 ≤ NINODES) :
    ∃ st, mkfs (names.map (·, [])) = some st ∧
      ∀ j < names.length + 2, dirEntry (diskView sb st.img) ROOTINO j = rootEntries names j := by
  obtain ⟨stE, stF, hF, hemp, hrootF, himg⟩ := mkfs_empty names hs hn
  have hn' : names.length + 2 ≤ 200 := hn
  refine ⟨stF, hF, fun j hj => ?_⟩
  have hj' : j < 2 + names.length := by omega
  -- the bytes of entry `j`: the root's blocks are as before, and so are the blocks holding them
  have hbytes : ∀ i < direntSize,
      fileByte (diskView sb stF.img) ROOTINO (direntSize * j + i) = direntBytes (rootEntries names j) i := by
    intro i hi
    rw [fileByte_dir (k := 2 + names.length) (fun i hi => ?_) (by unfold direntSize BSIZE NDIRECT; omega) hj' hi]
    · show blockByte (stF.img _) _ = _
      rw [himg _ (data_ne_of_lt (by decide) _) (data_ne_of_lt (by decide) _)]
      exact hemp.entries j hj' i hi
    · rw [hrootF]
      exact hemp.blocks i ((hemp.root.addrs i).1.mpr hi)
  rw [dirEntry, decodeDirent_congr hbytes, decodeDirent_direntBytes (rootEntries_stored hc j)]

/-- The argument `user/_ls` enters the root directory as `ls`, and `README` as it is. -/
theorem mkfs_root_entries_user :
    (∀ n ∈ [['u', 's', 'e', 'r', '/', '_', 'l', 's'], ['R', 'E', 'A', 'D', 'M', 'E']], (shortName n).isSome) ∧
    (∀ n ∈ [['u', 's', 'e', 'r', '/', '_', 'l', 's'], ['R', 'E', 'A', 'D', 'M', 'E']],
      ∀ c ∈ n, c ≠ Char.ofNat 0 ∧ c.toNat < 256) ∧
    rootEntries [['u', 's', 'e', 'r', '/', '_', 'l', 's'], ['R', 'E', 'A', 'D', 'M', 'E']] 2 =
      ⟨UInt16.ofNat 2, ['l', 's']⟩ ∧
    ∃ st, mkfs ([['u', 's', 'e', 'r', '/', '_', 'l', 's'], ['R', 'E', 'A', 'D', 'M', 'E']].map (·, [])) = some st ∧
      ∀ j < 4, dirEntry (diskView sb st.img) ROOTINO j =
        rootEntries [['u', 's', 'e', 'r', '/', '_', 'l', 's'], ['R', 'E', 'A', 'D', 'M', 'E']] j := by
  have hs : ∀ n ∈ [['u', 's', 'e', 'r', '/', '_', 'l', 's'], ['R', 'E', 'A', 'D', 'M', 'E']],
      (shortName n).isSome := by decide
  have hc : ∀ n ∈ [['u', 's', 'e', 'r', '/', '_', 'l', 's'], ['R', 'E', 'A', 'D', 'M', 'E']],
      ∀ c ∈ n, c ≠ Char.ofNat 0 ∧ c.toNat < 256 := by simp
  exact ⟨hs, hc, by decide, mkfs_root_entries _ hs hc (by decide)⟩

end Mkfs

end Xv6Sched
