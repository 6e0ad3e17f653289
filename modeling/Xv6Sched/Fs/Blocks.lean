import Xv6Sched.Fs.Disk
import Xv6Sched.Lib.Bits
import Xv6Sched.Lib.Scan

/-!
# Xv6Sched.Fs.Blocks — every referenced block is the only reference to it, and is in use

A slot of an inode holds a block number: one of its direct addresses, its indirect block, or an
entry of that block (`Slot`, `slotVal`); `Refs d i s b` says that the allocated inode `i` holds
block `b ≠ 0` in slot `s`.  `FsOk` is the invariant of the block layer:

* the blocks before the data area are marked in use;
* two slots that hold the same block are the same slot of the same inode;
* every block held lies in the data area, below `sb.size`;
* every block held is marked in use.

`balloc` and `bfree` read and write one bit, found by the same arithmetic (`BBLOCK`,
`b % BPB`, `bi % 8`): the bit of block `b` is changed and no other (`inUse_markUsed`,
`inUse_markFree`).  On that, each function of the block layer keeps `FsOk` (`FsOk.bmap`,
`FsOk.writei`, `FsOk.itrunc`, `FsOk.ialloc`, …) and so does every call (`FsOk.fsStep`); from a
disk satisfying it, `balloc` never hands out a block some inode holds and `itrunc` of an
allocated inode never reaches the panic `freeing free block` (`fsReachable_blocks`).
-/

namespace Xv6Sched

/-! ### What a write changes -/

section Setters

variable {d : Fs} {inum i b c : Nat} {ip : Dinode} {blk : Fin NINDIRECT → Nat} {x : UInt8}

@[simp] theorem setInode_inode : (d.setInode inum ip).inode = Function.update d.inode inum ip := rfl
@[simp] theorem setInode_data : (d.setInode inum ip).data = d.data := rfl
@[simp] theorem setInode_bitmap : (d.setInode inum ip).bitmap = d.bitmap := rfl
@[simp] theorem setData_inode : (d.setData b blk).inode = d.inode := rfl
@[simp] theorem setData_data : (d.setData b blk).data = Function.update d.data b blk := rfl
@[simp] theorem setData_bitmap : (d.setData b blk).bitmap = d.bitmap := rfl
@[simp] theorem setByte_inode : (d.setByte b i x).inode = d.inode := rfl
@[simp] theorem setByte_data : (d.setByte b i x).data = d.data := rfl

theorem setByte_bitmap (b' i' : Nat) :
    (d.setByte b i x).bitmap b' i' = if b' = b ∧ i' = i then x else d.bitmap b' i' := by
  unfold Fs.setByte
  by_cases hb : b' = b
  · subst hb
    by_cases hi : i' = i
    · subst hi; simp
    · simp [hi]
  · simp [hb]

@[simp] theorem bzero_inode : (bzero d b).inode = d.inode := rfl
@[simp] theorem bzero_bitmap : (bzero d b).bitmap = d.bitmap := rfl

@[simp] theorem setAddr_type (k : Fin (NDIRECT + 1)) (a : Nat) :
    ((d.setAddr inum k a).inode i).type = (d.inode i).type := by
  by_cases h : i = inum
  · subst h; simp [Fs.setAddr]
  · simp [Fs.setAddr, h]

@[simp] theorem setAddr_data (k : Fin (NDIRECT + 1)) (a : Nat) :
    (d.setAddr inum k a).data = d.data := rfl

@[simp] theorem setAddr_bitmap (k : Fin (NDIRECT + 1)) (a : Nat) :
    (d.setAddr inum k a).bitmap = d.bitmap := rfl

@[simp] theorem setSize_type (n : Nat) : ((d.setSize inum n).inode i).type = (d.inode i).type := by
  by_cases h : i = inum
  · subst h; simp [Fs.setSize]
  · simp [Fs.setSize, h]

@[simp] theorem setNlink_type (n : Nat) :
    ((d.setNlink inum n).inode i).type = (d.inode i).type := by
  by_cases h : i = inum
  · subst h; simp [Fs.setNlink]
  · simp [Fs.setNlink, h]

end Setters

/-! ### The bitmap -/

section Bitmap

variable (sb : Superblock) {d : Fs}

/-- Block `b` is marked in use: `balloc`'s and `bfree`'s test of its bit. -/
def inUse (d : Fs) (b : Nat) : Prop :=
  d.bitmap (BBLOCK b sb) (b % BPB / 8) &&& bitMask (b % BPB) ≠ 0

instance (d : Fs) (b : Nat) : Decidable (inUse sb d b) := inferInstanceAs (Decidable (_ ≠ _))

/-- `balloc`'s write of the bitmap for block `a`: `bp->data[bi/8] |= m`. -/
def markUsed (d : Fs) (a : Nat) : Fs :=
  d.setByte (BBLOCK a sb) (a % BPB / 8) (d.bitmap (BBLOCK a sb) (a % BPB / 8) ||| bitMask (a % BPB))

/-- `bfree`'s write of the bitmap for block `a`: `bp->data[bi/8] &= ~m`. -/
def markFree (d : Fs) (a : Nat) : Fs :=
  d.setByte (BBLOCK a sb) (a % BPB / 8)
    (d.bitmap (BBLOCK a sb) (a % BPB / 8) &&& ~~~bitMask (a % BPB))

@[simp] theorem markUsed_inode (a : Nat) : (markUsed sb d a).inode = d.inode := rfl
@[simp] theorem markUsed_data (a : Nat) : (markUsed sb d a).data = d.data := rfl
@[simp] theorem markFree_inode (a : Nat) : (markFree sb d a).inode = d.inode := rfl
@[simp] theorem markFree_data (a : Nat) : (markFree sb d a).data = d.data := rfl

variable {sb}

theorem inUse_iff {b : Nat} :
    inUse sb d b ↔ (d.bitmap (BBLOCK b sb) (b % BPB / 8)).toNat.testBit (b % BPB % 8) = true :=
  Bits.and_one_shiftLeft_ne_zero _ (Nat.mod_lt _ (by decide))

/-- The bit of a block is found by `BBLOCK`, the byte `b % BPB / 8` and the bit `b % BPB % 8`;
distinct blocks have distinct bits. -/
theorem eq_of_bit_eq {a b : Nat} (h1 : BBLOCK a sb = BBLOCK b sb) (h2 : a % BPB / 8 = b % BPB / 8)
    (h3 : a % BPB % 8 = b % BPB % 8) : a = b := by
  unfold BBLOCK BPB BSIZE at *
  omega

/-- Whether a bit is set depends on the bitmap alone. -/
theorem inUse_congr {d' : Fs} (h : d'.bitmap = d.bitmap) {b : Nat} : inUse sb d' b ↔ inUse sb d b := by
  unfold inUse; rw [h]

theorem inUse_markUsed (a b : Nat) : inUse sb (markUsed sb d a) b ↔ b = a ∨ inUse sb d b := by
  rw [inUse_iff, inUse_iff, markUsed, setByte_bitmap]
  split_ifs with hpos
  · obtain ⟨h1, h2⟩ := hpos
    rw [bitMask, Bits.testBit_or_one_shiftLeft _ (Nat.mod_lt _ (by decide)), h1, h2, Bool.or_eq_true,
      decide_eq_true_eq]
    have hbit : a % BPB % 8 = b % BPB % 8 ↔ b = a :=
      ⟨fun h3 => eq_of_bit_eq h1 h2 h3.symm, fun e => e ▸ rfl⟩
    rw [hbit, or_comm]
  · have hne : b ≠ a := fun e => hpos ⟨e ▸ rfl, e ▸ rfl⟩
    simp [hne]

theorem inUse_markFree (a b : Nat) : inUse sb (markFree sb d a) b ↔ b ≠ a ∧ inUse sb d b := by
  rw [inUse_iff, inUse_iff, markFree, setByte_bitmap]
  split_ifs with hpos
  · obtain ⟨h1, h2⟩ := hpos
    rw [bitMask, Bits.testBit_and_not_one_shiftLeft _ (Nat.mod_lt _ (by decide)) (Nat.mod_lt _ (by decide)),
      h1, h2, Bool.and_eq_true, Bool.not_eq_true', decide_eq_false_iff_not]
    have hbit : a % BPB % 8 = b % BPB % 8 ↔ b = a :=
      ⟨fun h3 => eq_of_bit_eq h1 h2 h3.symm, fun e => e ▸ rfl⟩
    rw [hbit, and_comm]
  · have hne : b ≠ a := fun e => hpos ⟨e ▸ rfl, e ▸ rfl⟩
    simp [hne]

@[simp] theorem inUse_bzero {b c : Nat} : inUse sb (bzero d b) c ↔ inUse sb d c := Iff.rfl

@[simp] theorem inUse_setAddr {inum c : Nat} {k : Fin (NDIRECT + 1)} {a : Nat} :
    inUse sb (d.setAddr inum k a) c ↔ inUse sb d c := Iff.rfl

@[simp] theorem inUse_setData {b c : Nat} {blk : Fin NINDIRECT → Nat} :
    inUse sb (d.setData b blk) c ↔ inUse sb d c := Iff.rfl

@[simp] theorem inUse_setInode {inum c : Nat} {ip : Dinode} :
    inUse sb (d.setInode inum ip) c ↔ inUse sb d c := Iff.rfl

/-- `bfree` clears the bit of a block in use and panics on a free one. -/
theorem bfree_eq (b : Nat) : bfree sb d b = if inUse sb d b then some (markFree sb d b) else none := by
  simp only [bfree]
  by_cases h : inUse sb d b
  · rw [if_pos h, if_neg h]
    rfl
  · rw [if_neg h, if_pos (not_not.mp h)]

/-- What `balloc` hands out: a block below `sb.size` whose bit was clear, now set, and zeroed. -/
theorem balloc_spec {a : Nat} {d' : Fs} (h : balloc sb d = some (a, d')) :
    a < sb.size ∧ ¬ inUse sb d a ∧ d' = bzero (markUsed sb d a) a := by
  unfold balloc at h
  obtain ⟨⟨b, bi0⟩, hfs, hr⟩ := Option.map_eq_some_iff.mp h
  obtain ⟨i, -, hs⟩ := List.exists_of_findSome?_eq_some hfs
  obtain ⟨bi, hscan, hbi⟩ := Option.map_eq_some_iff.mp hs
  simp only [Prod.mk.injEq] at hbi hr
  obtain ⟨rfl, rfl⟩ := hbi
  obtain ⟨rfl, rfl⟩ := hr
  have hlt : bi < min BPB (sb.size - i * BPB) := List.mem_range.mp (List.mem_of_find?_eq_some hscan)
  have hfree := List.find?_some hscan
  -- block `i * BPB + bi` has its bit at byte `bi / 8` of the bitmap block of `i * BPB`
  have hblk : BBLOCK (i * BPB + bi) sb = BBLOCK (i * BPB) sb := by
    unfold BBLOCK BPB BSIZE at *
    omega
  have hmod : (i * BPB + bi) % BPB = bi := by
    unfold BPB BSIZE at *
    omega
  refine ⟨by omega, ?_, ?_⟩
  · rw [inUse, hblk, hmod, not_not]
    simpa using hfree
  · rw [markUsed, hblk, hmod]

/-- `balloc` panics only when every block below `sb.size` is in use. -/
theorem balloc_eq_none (h : balloc sb d = none) : ∀ b < sb.size, inUse sb d b := by
  intro b hb
  unfold balloc at h
  rw [Option.map_eq_none_iff, List.findSome?_eq_none_iff] at h
  have hi := h (b / BPB) (List.mem_range.mpr (by unfold BPB BSIZE; omega))
  rw [Option.map_eq_none_iff, ballocScan, List.find?_eq_none] at hi
  have hbi := hi (b % BPB) (List.mem_range.mpr (by unfold BPB BSIZE at *; omega))
  have hblk : BBLOCK (b / BPB * BPB) sb = BBLOCK b sb := by
    unfold BBLOCK BPB BSIZE
    omega
  rw [inUse, ← hblk]
  simpa using hbi

/-- The blocks below `sb.size` whose bit is clear: those `balloc` can still hand out. -/
def freeBlocks (sb : Superblock) (d : Fs) : Nat := ((Finset.range sb.size).filter fun b => ¬ inUse sb d b).card

/-- Only the bitmap counts: the writes of inodes and data blocks keep the free blocks. -/
theorem freeBlocks_congr {d' : Fs} (h : d'.bitmap = d.bitmap) : freeBlocks sb d' = freeBlocks sb d := by
  simp only [freeBlocks, inUse_congr h]

/-- `balloc` finds a block while one is free. -/
theorem balloc_ne_none (h : 0 < freeBlocks sb d) : balloc sb d ≠ none := by
  intro hb
  obtain ⟨b, hb'⟩ := Finset.card_pos.mp h
  rw [Finset.mem_filter, Finset.mem_range] at hb'
  exact hb'.2 (balloc_eq_none hb b hb'.1)

/-- Each block `balloc` hands out is one free block less. -/
theorem freeBlocks_balloc {a : Nat} {d' : Fs} (h : balloc sb d = some (a, d')) :
    freeBlocks sb d' + 1 = freeBlocks sb d := by
  obtain ⟨ha, hfree, rfl⟩ := balloc_spec h
  have hmem : a ∈ (Finset.range sb.size).filter fun b => ¬ inUse sb d b := by
    simp [ha, hfree]
  -- the bit of `a` is set and no other
  have hset : ((Finset.range sb.size).filter fun b => ¬ inUse sb (bzero (markUsed sb d a) a) b) =
      ((Finset.range sb.size).filter fun b => ¬ inUse sb d b).erase a := by
    ext b
    simp only [Finset.mem_filter, Finset.mem_range, Finset.mem_erase, inUse_bzero, inUse_markUsed]
    tauto
  have hpos := Finset.card_pos.mpr ⟨a, hmem⟩
  unfold freeBlocks
  rw [hset, Finset.card_erase_of_mem hmem]
  omega

end Bitmap

/-! ### Slots and the invariant -/

/-- A place in an inode that holds a block number. -/
inductive Slot where
  | direct (k : Fin NDIRECT)
  | indirect
  | entry (j : Fin NINDIRECT)
  deriving DecidableEq

/-- The block number slot `s` of `ip` holds, `0` for none; an entry of the indirect block holds
one only while there is an indirect block. -/
def slotVal (data : Nat → Fin NINDIRECT → Nat) (ip : Dinode) : Slot → Nat
  | .direct k => ip.addrs k.castSucc
  | .indirect => ip.addrs (Fin.last NDIRECT)
  | .entry j => if ip.addrs (Fin.last NDIRECT) = 0 then 0 else data (ip.addrs (Fin.last NDIRECT)) j

/-- Inode `i` is allocated: it is in the inode table and has a type. -/
def Allocated (sb : Superblock) (d : Fs) (i : Nat) : Prop := i < sb.ninodes ∧ (d.inode i).type ≠ 0

/-- The inodes a call may act on are the allocated ones. -/
theorem inodeOk_iff {sb : Superblock} {d : Fs} {inum : Nat} :
    inodeOk sb d inum = true ↔ Allocated sb d inum := by
  simp [inodeOk, Allocated]

/-- The allocated inode `i` holds block `b` in slot `s`. -/
def Refs (sb : Superblock) (d : Fs) (i : Nat) (s : Slot) (b : Nat) : Prop :=
  Allocated sb d i ∧ b ≠ 0 ∧ slotVal d.data (d.inode i) s = b

/-- The invariant of the block layer. -/
structure FsOk (sb : Superblock) (d : Fs) : Prop where
  data_pos : 0 < sb.dataStart
  meta_used : ∀ b < sb.dataStart, inUse sb d b
  refs_inj : ∀ {i s j t b}, Refs sb d i s b → Refs sb d j t b → i = j ∧ s = t
  refs_data : ∀ {i s b}, Refs sb d i s b → sb.dataStart ≤ b ∧ b < sb.size
  refs_used : ∀ {i s b}, Refs sb d i s b → inUse sb d b

/-- No inode changed between allocated and free. -/
def SameTypes (d' d : Fs) : Prop := ∀ i, (d'.inode i).type = (d.inode i).type

theorem SameTypes.trans {d d' d'' : Fs} (h2 : SameTypes d'' d') (h1 : SameTypes d' d) :
    SameTypes d'' d := fun i => (h2 i).trans (h1 i)

section Refs

variable {sb : Superblock} {d d' : Fs} {inum i c : Nat} {s : Slot}

theorem Allocated.congr (h : d'.inode = d.inode) : Allocated sb d' i ↔ Allocated sb d i := by
  unfold Allocated; rw [h]

theorem SameTypes.allocated (h : SameTypes d' d) : Allocated sb d' i ↔ Allocated sb d i := by
  unfold Allocated; rw [h i]

theorem refs_congr (hi : d'.inode = d.inode) (hd : d'.data = d.data) :
    Refs sb d' i s c ↔ Refs sb d i s c := by
  unfold Refs Allocated; rw [hi, hd]

theorem refs_setInode {ip : Dinode} :
    Refs sb (d.setInode inum ip) i s c ↔
      if i = inum then (inum < sb.ninodes ∧ ip.type ≠ 0) ∧ c ≠ 0 ∧ slotVal d.data ip s = c
      else Refs sb d i s c := by
  unfold Refs Allocated
  split_ifs with h
  · subst h; simp
  · simp [h]

/-- Slot values of an inode whose direct address `k` became `v`. -/
theorem slotVal_setDirect (data : Nat → Fin NINDIRECT → Nat) (ip : Dinode) (k : Fin NDIRECT) (v : Nat) :
    slotVal data { ip with addrs := Function.update ip.addrs k.castSucc v } s =
      if s = .direct k then v else slotVal data ip s := by
  cases s with
  | direct k' =>
    by_cases h : k' = k
    · subst h; simp [slotVal]
    · simp [slotVal, h, Fin.castSucc_inj]
  | indirect => simp [slotVal, (Fin.castSucc_ne_last k).symm]
  | entry j => simp [slotVal, (Fin.castSucc_ne_last k).symm]

/-- Slot values of an inode whose indirect block became `v`. -/
theorem slotVal_setIndirect (data : Nat → Fin NINDIRECT → Nat) (ip : Dinode) (v : Nat) :
    slotVal data { ip with addrs := Function.update ip.addrs (Fin.last NDIRECT) v } s =
      match s with
      | .direct k => ip.addrs k.castSucc
      | .indirect => v
      | .entry j => if v = 0 then 0 else data v j := by
  cases s with
  | direct k => simp [slotVal, Fin.castSucc_ne_last k]
  | indirect => simp [slotVal]
  | entry j => simp [slotVal]

/-- A write of a block that is not inode `i`'s indirect block changes none of `i`'s slots. -/
theorem refs_setData {b : Nat} {blk : Fin NINDIRECT → Nat} (h : ¬ Refs sb d i .indirect b) :
    Refs sb (d.setData b blk) i s c ↔ Refs sb d i s c := by
  unfold Refs
  rw [Allocated.congr setData_inode, setData_inode, setData_data]
  by_cases ht : Allocated sb d i
  · cases s with
    | direct k => rfl
    | indirect => rfl
    | entry j =>
      simp only [slotVal]
      by_cases hz : (d.inode i).addrs (Fin.last NDIRECT) = 0
      · simp only [hz, if_true]
      · have hne : (d.inode i).addrs (Fin.last NDIRECT) ≠ b := fun e => h ⟨ht, e ▸ hz, e⟩
        simp only [hz, if_false, Function.update_of_ne hne]
  · exact ⟨fun h' => absurd h'.1 ht, fun h' => absurd h'.1 ht⟩

/-- The entries of an inode whose indirect block is `ia` are the words of `ia`. -/
theorem slotVal_entry {data : Nat → Fin NINDIRECT → Nat} {ip : Dinode} {ia : Nat}
    (hia : ip.addrs (Fin.last NDIRECT) = ia) (h0 : ia ≠ 0) (j : Fin NINDIRECT) :
    slotVal data ip (.entry j) = data ia j := by
  rw [slotVal, hia, if_neg h0]

end Refs

section Invariant

variable {sb : Superblock} {d d' : Fs} {inum : Nat}

/-- The invariant survives a write that drops references and clears only bits of blocks that are
neither metadata nor still referenced. -/
theorem FsOk.mono (hok : FsOk sb d) (hrefs : ∀ {i s c}, Refs sb d' i s c → Refs sb d i s c)
    (hused : ∀ c, inUse sb d c → (c < sb.dataStart ∨ ∃ i s, Refs sb d' i s c) → inUse sb d' c) :
    FsOk sb d' where
  data_pos := hok.data_pos
  meta_used b hb := hused b (hok.meta_used b hb) (Or.inl hb)
  refs_inj h1 h2 := hok.refs_inj (hrefs h1) (hrefs h2)
  refs_data h := hok.refs_data (hrefs h)
  refs_used h := hused _ (hok.refs_used (hrefs h)) (Or.inr ⟨_, _, h⟩)

/-- The invariant survives a write that stores in one slot a block in use, in the data area, that
no slot held. -/
theorem FsOk.extend (hok : FsOk sb d) {i0 : Nat} {s0 : Slot} {a : Nat}
    (hrefs : ∀ {i s c}, Refs sb d' i s c ↔ Refs sb d i s c ∨ (i = i0 ∧ s = s0 ∧ c = a))
    (hfresh : ∀ i s, ¬ Refs sb d i s a) (hbits : d'.bitmap = d.bitmap) (ha : inUse sb d a)
    (hdata : sb.dataStart ≤ a ∧ a < sb.size) : FsOk sb d' where
  data_pos := hok.data_pos
  meta_used b hb := (inUse_congr hbits).mpr (hok.meta_used b hb)
  refs_inj := by
    intro i s j t c h1 h2
    rcases hrefs.mp h1 with h1 | ⟨rfl, rfl, rfl⟩ <;> rcases hrefs.mp h2 with h2 | ⟨rfl, rfl, e⟩
    · exact hok.refs_inj h1 h2
    · exact absurd (e ▸ h1) (hfresh _ _)
    · exact absurd h2 (hfresh _ _)
    · exact ⟨rfl, rfl⟩
  refs_data h := by
    rcases hrefs.mp h with h | ⟨-, -, rfl⟩
    · exact hok.refs_data h
    · exact hdata
  refs_used h := by
    rw [inUse_congr hbits]
    rcases hrefs.mp h with h | ⟨-, -, rfl⟩
    · exact hok.refs_used h
    · exact ha

/-- `balloc` from a disk satisfying the invariant: the invariant holds after it, no slot changed,
and the block it hands out is held by no slot, in use, in the data area and zeroed. -/
theorem FsOk.balloc {a : Nat} (hok : FsOk sb d) (h : balloc sb d = some (a, d')) :
    FsOk sb d' ∧ (∀ {i s c}, Refs sb d' i s c ↔ Refs sb d i s c) ∧ (∀ i s, ¬ Refs sb d' i s a) ∧
      inUse sb d' a ∧ (sb.dataStart ≤ a ∧ a < sb.size) ∧ d'.inode = d.inode ∧
      d'.data a = (fun _ => 0) ∧ ∀ b, b ≠ a → d'.data b = d.data b := by
  obtain ⟨hlt, hfree, rfl⟩ := balloc_spec h
  have hfresh : ∀ i s, ¬ Refs sb d i s a := fun i s hr => hfree (hok.refs_used hr)
  have hrefs : ∀ {i s c}, Refs sb (bzero (markUsed sb d a) a) i s c ↔ Refs sb d i s c := by
    intro i s c
    rw [bzero, refs_setData, refs_congr (markUsed_inode sb a) (markUsed_data sb a)]
    intro hr
    exact hfresh i .indirect ((refs_congr (markUsed_inode sb a) (markUsed_data sb a)).mp hr)
  have hge : sb.dataStart ≤ a := Nat.le_of_not_lt fun hlt' => hfree (hok.meta_used a hlt')
  refine ⟨hok.mono hrefs.mp fun c hc _ => ?_, hrefs, fun i s hr => hfresh i s (hrefs.mp hr),
    ?_, ⟨hge, hlt⟩, rfl, by simp [bzero], fun b hb => by simp [bzero, hb]⟩
  · rw [inUse_bzero, inUse_markUsed]
    exact Or.inr hc
  · rw [inUse_bzero, inUse_markUsed]
    exact Or.inl rfl

/-- A write of a block held by a slot other than an indirect block keeps the invariant: it is no
inode's indirect block. -/
theorem FsOk.setData {b : Nat} {s : Slot} (hok : FsOk sb d) (hr : Refs sb d inum s b) (hs : s ≠ .indirect)
    (blk : Fin NINDIRECT → Nat) : FsOk sb (d.setData b blk) := by
  have hind : ∀ i, ¬ Refs sb d i .indirect b := fun i hi => hs (hok.refs_inj hr hi).2
  exact hok.mono (fun h => (refs_setData (hind _)).mp h) fun c hc _ => hc

/-! #### Storing a fresh block in an empty slot -/

variable {a : Nat}

theorem FsOk.setDirect (hok : FsOk sb d) (ht : Allocated sb d inum) {k : Fin NDIRECT}
    (hz : (d.inode inum).addrs k.castSucc = 0) (hfresh : ∀ i s, ¬ Refs sb d i s a) (ha : inUse sb d a)
    (hdata : sb.dataStart ≤ a ∧ a < sb.size) :
    FsOk sb (d.setAddr inum k.castSucc a) ∧ Refs sb (d.setAddr inum k.castSucc a) inum (.direct k) a := by
  have ha0 : a ≠ 0 := Nat.pos_iff_ne_zero.mp (Nat.lt_of_lt_of_le hok.data_pos hdata.1)
  have hrefs : ∀ {i s c}, Refs sb (d.setAddr inum k.castSucc a) i s c ↔
      Refs sb d i s c ∨ (i = inum ∧ s = .direct k ∧ c = a) := by
    intro i s c
    rw [Fs.setAddr, refs_setInode, slotVal_setDirect]
    split_ifs with hi hs
    · subst i s
      have hold : ¬ Refs sb d inum (.direct k) c := fun ⟨_, h0, e⟩ => h0 (e.symm.trans hz)
      constructor
      · rintro ⟨-, -, rfl⟩
        exact Or.inr ⟨rfl, rfl, rfl⟩
      · rintro (h | ⟨-, -, rfl⟩)
        · exact absurd h hold
        · exact ⟨ht, ha0, rfl⟩
    · subst i
      constructor
      · exact Or.inl
      · rintro (h | ⟨-, e, -⟩)
        · exact h
        · exact absurd e hs
    · constructor
      · exact Or.inl
      · rintro (h | ⟨e, -, -⟩)
        · exact h
        · exact absurd e hi
  exact ⟨hok.extend hrefs hfresh rfl ha hdata, hrefs.mpr (Or.inr ⟨rfl, rfl, rfl⟩)⟩

theorem FsOk.setIndirect (hok : FsOk sb d) (ht : Allocated sb d inum)
    (hz : (d.inode inum).addrs (Fin.last NDIRECT) = 0) (hfresh : ∀ i s, ¬ Refs sb d i s a)
    (ha : inUse sb d a) (hdata : sb.dataStart ≤ a ∧ a < sb.size) (hzero : d.data a = fun _ => 0) :
    FsOk sb (d.setAddr inum (Fin.last NDIRECT) a) ∧
      Refs sb (d.setAddr inum (Fin.last NDIRECT) a) inum .indirect a := by
  have ha0 : a ≠ 0 := Nat.pos_iff_ne_zero.mp (Nat.lt_of_lt_of_le hok.data_pos hdata.1)
  have hrefs : ∀ {i s c}, Refs sb (d.setAddr inum (Fin.last NDIRECT) a) i s c ↔
      Refs sb d i s c ∨ (i = inum ∧ s = .indirect ∧ c = a) := by
    intro i s c
    rw [Fs.setAddr, refs_setInode, slotVal_setIndirect]
    split_ifs with hi
    · subst i
      -- the entries of the new indirect block are zero, as were those of no block
      cases s with
      | direct k => simp [Refs, Allocated, slotVal]
      | indirect =>
        have hold : ¬ Refs sb d inum .indirect c := fun ⟨_, h0, e⟩ => h0 (e.symm.trans hz)
        constructor
        · rintro ⟨-, -, rfl⟩
          exact Or.inr ⟨rfl, rfl, rfl⟩
        · rintro (h | ⟨-, -, rfl⟩)
          · exact absurd h hold
          · exact ⟨ht, ha0, rfl⟩
      | entry j => simp [Refs, slotVal, hz, hzero, eq_comm]
    · constructor
      · exact Or.inl
      · rintro (h | ⟨e, -, -⟩)
        · exact h
        · exact absurd e hi
  exact ⟨hok.extend hrefs hfresh rfl ha hdata, hrefs.mpr (Or.inr ⟨rfl, rfl, rfl⟩)⟩

theorem FsOk.setEntry {ia : Nat} (hok : FsOk sb d) (hind : Refs sb d inum .indirect ia) {j : Fin NINDIRECT}
    (hz : d.data ia j = 0) (hfresh : ∀ i s, ¬ Refs sb d i s a) (ha : inUse sb d a)
    (hdata : sb.dataStart ≤ a ∧ a < sb.size) :
    FsOk sb (d.setData ia (Function.update (d.data ia) j a)) ∧
      Refs sb (d.setData ia (Function.update (d.data ia) j a)) inum (.entry j) a := by
  have ha0 : a ≠ 0 := Nat.pos_iff_ne_zero.mp (Nat.lt_of_lt_of_le hok.data_pos hdata.1)
  obtain ⟨ht, hia0, hia⟩ := hind
  have hrefs : ∀ {i s c}, Refs sb (d.setData ia (Function.update (d.data ia) j a)) i s c ↔
      Refs sb d i s c ∨ (i = inum ∧ s = .entry j ∧ c = a) := by
    intro i s c
    by_cases hi : i = inum
    · subst i
      cases s with
      | direct k => simp [Refs, Allocated, slotVal]
      | indirect => simp [Refs, Allocated, slotVal]
      | entry j' =>
        unfold Refs
        rw [setData_inode, slotVal_entry hia hia0, slotVal_entry hia hia0, setData_data,
          Function.update_self]
        by_cases hj : j' = j
        · subst j'
          rw [Function.update_self, hz]
          constructor
          · rintro ⟨-, -, rfl⟩
            exact Or.inr ⟨rfl, rfl, rfl⟩
          · rintro (⟨-, h0, rfl⟩ | ⟨-, -, rfl⟩)
            · exact absurd rfl h0
            · exact ⟨ht, ha0, rfl⟩
        · rw [Function.update_of_ne hj]
          constructor
          · exact Or.inl
          · rintro (h | ⟨-, e, -⟩)
            · exact h
            · exact absurd (Slot.entry.inj e) hj
    · -- `ia` is held by `inum` alone, so it is not `i`'s indirect block
      have hnot : ¬ Refs sb d i .indirect ia := fun hr => hi (hok.refs_inj hr ⟨ht, hia0, hia⟩).1
      rw [refs_setData hnot]
      constructor
      · exact Or.inl
      · rintro (h | ⟨e, -, -⟩)
        · exact h
        · exact absurd e hi
  exact ⟨hok.extend hrefs hfresh rfl ha hdata, hrefs.mpr (Or.inr ⟨rfl, rfl, rfl⟩)⟩

end Invariant

/-! ### The functions of the block layer -/

section Functions

variable {sb : Superblock} {d d' : Fs} {inum : Nat}

/-- A rewrite of an inode that keeps its type and its addresses changes no slot. -/
theorem refs_setInode_of {ip : Dinode} (htype : ip.type = (d.inode inum).type)
    (haddrs : ip.addrs = (d.inode inum).addrs) {i : Nat} {s : Slot} {c : Nat} :
    Refs sb (d.setInode inum ip) i s c ↔ Refs sb d i s c := by
  rw [refs_setInode]
  split_ifs with hi
  · subst i
    have hv : slotVal d.data ip s = slotVal d.data (d.inode inum) s := by
      cases s <;> simp [slotVal, haddrs]
    rw [htype, hv]
    rfl
  · rfl

theorem FsOk.setInode_of {ip : Dinode} (hok : FsOk sb d) (htype : ip.type = (d.inode inum).type)
    (haddrs : ip.addrs = (d.inode inum).addrs) : FsOk sb (d.setInode inum ip) :=
  hok.mono (fun h => (refs_setInode_of htype haddrs).mp h) fun _ hc _ => hc

theorem allocSlot_cases {write : Nat → Fs → Fs} {addr b : Nat}
    (h : allocSlot sb d addr write = some (b, d')) :
    (addr ≠ 0 ∧ b = addr ∧ d' = d) ∨ (addr = 0 ∧ ∃ d1, balloc sb d = some (b, d1) ∧ d' = write b d1) := by
  unfold allocSlot at h
  split_ifs at h with h0
  · obtain ⟨⟨a, d1⟩, hb, he⟩ := Option.map_eq_some_iff.mp h
    simp only [Prod.mk.injEq] at he
    obtain ⟨rfl, rfl⟩ := he
    exact Or.inr ⟨h0, d1, hb, rfl⟩
  · simp only [Option.some.injEq, Prod.mk.injEq] at h
    obtain ⟨rfl, rfl⟩ := h
    exact Or.inl ⟨h0, rfl, rfl⟩

/-- The indirect block `bmap` loads, allocating it when missing. -/
theorem FsOk.loadIndirect (hok : FsOk sb d) (ht : Allocated sb d inum) {ia : Nat} {d1 : Fs}
    (h : allocSlot sb d ((d.inode inum).addrs (Fin.last NDIRECT))
      (fun addr d => d.setAddr inum (Fin.last NDIRECT) addr) = some (ia, d1)) :
    FsOk sb d1 ∧ SameTypes d1 d ∧ Refs sb d1 inum .indirect ia := by
  rcases allocSlot_cases h with ⟨h0, rfl, rfl⟩ | ⟨h0, d2, hb, rfl⟩
  · exact ⟨hok, fun _ => rfl, ht, h0, rfl⟩
  · obtain ⟨hok2, -, hfresh, hu, hdata, hi2, hz2, -⟩ := hok.balloc hb
    have ht2 : Allocated sb d2 inum := (Allocated.congr hi2).mpr ht
    have hz : (d2.inode inum).addrs (Fin.last NDIRECT) = 0 := by rw [hi2]; exact h0
    obtain ⟨hok3, hr3⟩ := hok2.setIndirect ht2 hz hfresh hu hdata hz2
    exact ⟨hok3, fun i => by rw [setAddr_type, hi2], hr3⟩

/-- `bmap` keeps the invariant and returns a block the inode holds in a slot other than its
indirect block. -/
theorem FsOk.bmap (hok : FsOk sb d) (ht : Allocated sb d inum) {bn addr : Nat}
    (h : bmap sb d inum bn = some (addr, d')) :
    FsOk sb d' ∧ SameTypes d' d ∧ ∃ s, s ≠ .indirect ∧ Refs sb d' inum s addr := by
  unfold Xv6Sched.bmap at h
  split_ifs at h with hd hi
  · -- a direct block
    let k : Fin NDIRECT := ⟨bn, hd⟩
    change allocSlot sb d ((d.inode inum).addrs k.castSucc)
      (fun addr d => d.setAddr inum k.castSucc addr) = some (addr, d') at h
    rcases allocSlot_cases h with ⟨h0, rfl, rfl⟩ | ⟨h0, d1, hb, rfl⟩
    · exact ⟨hok, fun _ => rfl, .direct k, nofun, ht, h0, rfl⟩
    · obtain ⟨hok1, -, hfresh, hu, hdata, hi1, -, -⟩ := hok.balloc hb
      have ht1 : Allocated sb d1 inum := (Allocated.congr hi1).mpr ht
      have hz : (d1.inode inum).addrs k.castSucc = 0 := by rw [hi1]; exact h0
      obtain ⟨hok2, hr2⟩ := hok1.setDirect ht1 hz hfresh hu hdata
      exact ⟨hok2, fun i => by rw [setAddr_type, hi1], .direct k, nofun, hr2⟩
  · -- an entry of the indirect block
    obtain ⟨⟨ia, d1⟩, h1, h2⟩ := Option.bind_eq_some_iff.mp h
    obtain ⟨hok1, ht1, hind⟩ := hok.loadIndirect ht h1
    let j : Fin NINDIRECT := ⟨bn - NDIRECT, hi⟩
    change allocSlot sb d1 (d1.data ia j)
      (fun addr d => d.setData ia (Function.update (d1.data ia) j addr)) = some (addr, d') at h2
    rcases allocSlot_cases h2 with ⟨h0, rfl, rfl⟩ | ⟨h0, d2, hb, rfl⟩
    · exact ⟨hok1, ht1, .entry j, nofun, hind.1, h0, slotVal_entry hind.2.2 hind.2.1 j⟩
    · obtain ⟨hok2, hr2, hfresh, hu, hdata, hi2, -, hd2⟩ := hok1.balloc hb
      have hind2 : Refs sb d2 inum .indirect ia := hr2.mpr hind
      -- `ia` is in use, so `balloc` did not hand it out: its words are those `bmap` read
      have hne : ia ≠ addr := fun e => hfresh inum .indirect (e ▸ hind2)
      have hz : d2.data ia j = 0 := by rw [hd2 ia hne]; exact h0
      rw [← hd2 ia hne]
      obtain ⟨hok3, hr3⟩ := hok2.setEntry hind2 hz hfresh hu hdata
      exact ⟨hok3, fun i => by rw [setData_inode, hi2]; exact ht1 i, .entry j, nofun, hr3⟩

/-- The loop of `writei` keeps the invariant: each block it writes is one `bmap` returned. -/
theorem FsOk.writeLoop {n : Nat} {copyin : CopyIn} {tot off tot' off' : Nat} (hok : FsOk sb d)
    (ht : Allocated sb d inum) (h : writeLoop sb inum n copyin tot off d = some (tot', off', d')) :
    FsOk sb d' ∧ SameTypes d' d := by
  induction tot, off, d using writeLoop.induct sb inum n copyin with
  | case1 tot off d htot hb =>
    rw [Xv6Sched.writeLoop, dif_pos htot, hb] at h
    cases h
  | case2 tot off d htot addr d1 hb hc =>
    rw [Xv6Sched.writeLoop, dif_pos htot, hb] at h
    simp only [hc, Option.some.injEq, Prod.mk.injEq] at h
    obtain ⟨-, -, rfl⟩ := h
    obtain ⟨hok1, ht1, -⟩ := hok.bmap ht hb
    exact ⟨hok1, ht1⟩
  | case3 tot off d htot addr d1 hb blk hc ih =>
    rw [Xv6Sched.writeLoop, dif_pos htot, hb] at h
    simp only [hc] at h
    obtain ⟨hok1, ht1, s, hs, hr⟩ := hok.bmap ht hb
    have ht2 : Allocated sb (d1.setData addr blk) inum :=
      (Allocated.congr setData_inode).mpr (ht1.allocated.mpr ht)
    obtain ⟨hok3, ht3⟩ := ih (hok1.setData hr hs blk) ht2 h
    exact ⟨hok3, ht3.trans ht1⟩
  | case4 tot off d htot =>
    rw [Xv6Sched.writeLoop, dif_neg htot] at h
    simp only [Option.some.injEq, Prod.mk.injEq] at h
    obtain ⟨-, -, rfl⟩ := h
    exact ⟨hok, fun _ => rfl⟩

theorem FsOk.writei {off n : Nat} {copyin : CopyIn} {r : Int} (hok : FsOk sb d)
    (ht : Allocated sb d inum) (h : writei sb d inum off n copyin = some (r, d')) :
    FsOk sb d' ∧ SameTypes d' d := by
  unfold Xv6Sched.writei at h
  split_ifs at h with h1 h2
  · simp only [Option.some.injEq, Prod.mk.injEq] at h
    obtain ⟨-, rfl⟩ := h
    exact ⟨hok, fun _ => rfl⟩
  · simp only [Option.some.injEq, Prod.mk.injEq] at h
    obtain ⟨-, rfl⟩ := h
    exact ⟨hok, fun _ => rfl⟩
  · obtain ⟨⟨tot, off', d1⟩, hl, he⟩ := Option.map_eq_some_iff.mp h
    obtain ⟨hok1, ht1⟩ := hok.writeLoop ht hl
    simp only [Prod.mk.injEq] at he
    obtain ⟨-, rfl⟩ := he
    split_ifs
    · exact ⟨hok1.setInode_of rfl rfl, fun i => by rw [setSize_type]; exact ht1 i⟩
    · exact ⟨hok1, ht1⟩

/-- The loop of `readi` keeps the invariant: it only maps blocks. -/
theorem FsOk.readLoop {n : Nat} {copyout : CopyOut} {tot off : Nat} {r : Int} (hok : FsOk sb d)
    (ht : Allocated sb d inum) (h : readLoop sb inum n copyout tot off d = some (r, d')) :
    FsOk sb d' ∧ SameTypes d' d := by
  induction tot, off, d using readLoop.induct sb inum n copyout with
  | case1 tot off d htot hb =>
    rw [Xv6Sched.readLoop, dif_pos htot, hb] at h
    cases h
  | case2 tot off d htot addr d1 hb hc ih =>
    rw [Xv6Sched.readLoop, dif_pos htot, hb] at h
    simp only [hc, if_true] at h
    obtain ⟨hok1, ht1, -⟩ := hok.bmap ht hb
    obtain ⟨hok2, ht2⟩ := ih hok1 (ht1.allocated.mpr ht) h
    exact ⟨hok2, ht2.trans ht1⟩
  | case3 tot off d htot addr d1 hb hc =>
    rw [Xv6Sched.readLoop, dif_pos htot, hb] at h
    simp only [hc, Bool.false_eq_true, if_false, Option.some.injEq, Prod.mk.injEq] at h
    obtain ⟨-, rfl⟩ := h
    obtain ⟨hok1, ht1, -⟩ := hok.bmap ht hb
    exact ⟨hok1, ht1⟩
  | case4 tot off d htot =>
    rw [Xv6Sched.readLoop, dif_neg htot] at h
    simp only [Option.some.injEq, Prod.mk.injEq] at h
    obtain ⟨-, rfl⟩ := h
    exact ⟨hok, fun _ => rfl⟩

theorem FsOk.readi {off n : Nat} {copyout : CopyOut} {r : Int} (hok : FsOk sb d)
    (ht : Allocated sb d inum) (h : readi sb d inum off n copyout = some (r, d')) :
    FsOk sb d' ∧ SameTypes d' d := by
  unfold Xv6Sched.readi at h
  split_ifs at h with h1 h2
  · simp only [Option.some.injEq, Prod.mk.injEq] at h
    obtain ⟨-, rfl⟩ := h
    exact ⟨hok, fun _ => rfl⟩
  -- `n` clipped to the end of the file, or not
  · exact hok.readLoop ht h
  · exact hok.readLoop ht h

end Functions

/-! ### `itrunc` never frees a free block -/

section Trunc

variable {sb : Superblock} {d d' : Fs} {inum i c : Nat} {s : Slot}

theorem refs_clearDirect {k : Fin NDIRECT} :
    Refs sb (d.setAddr inum k.castSucc 0) i s c ↔ Refs sb d i s c ∧ ¬ (i = inum ∧ s = .direct k) := by
  rw [Fs.setAddr, refs_setInode, slotVal_setDirect]
  split_ifs with hi hs
  · constructor
    · rintro ⟨-, h0, rfl⟩
      exact absurd rfl h0
    · rintro ⟨-, h⟩
      exact absurd ⟨hi, hs⟩ h
  · subst i
    exact ⟨fun h => ⟨h, fun ⟨_, e⟩ => hs e⟩, fun h => h.1⟩
  · exact ⟨fun h => ⟨h, fun ⟨e, _⟩ => hi e⟩, fun h => h.1⟩

theorem refs_clearIndirect :
    Refs sb (d.setAddr inum (Fin.last NDIRECT) 0) i s c ↔
      Refs sb d i s c ∧ (i = inum → ∃ k, s = .direct k) := by
  rw [Fs.setAddr, refs_setInode]
  by_cases hi : i = inum
  · subst i
    rw [if_pos rfl, slotVal_setIndirect]
    -- without an indirect block, only the direct addresses hold blocks
    cases s with
    | direct k => exact ⟨fun h => ⟨h, fun _ => ⟨k, rfl⟩⟩, fun h => h.1⟩
    | indirect =>
      constructor
      · rintro ⟨-, h0, rfl⟩
        exact absurd rfl h0
      · rintro ⟨-, h⟩
        obtain ⟨k, e⟩ := h rfl
        cases e
    | entry j =>
      constructor
      · rintro ⟨-, h0, e⟩
        exact absurd (by simpa using e.symm) h0
      · rintro ⟨-, h⟩
        obtain ⟨k, e⟩ := h rfl
        cases e
  · rw [if_neg hi]
    exact ⟨fun h => ⟨h, fun e => absurd e hi⟩, fun h => h.1⟩

/-- One pass of `itrunc`'s first loop keeps the invariant, and its `bfree` does not panic. -/
theorem FsOk.truncDirect (hok : FsOk sb d) (ht : Allocated sb d inum) (k : Fin NDIRECT) :
    ∃ d', truncDirect sb inum d k = some d' ∧ FsOk sb d' ∧ SameTypes d' d := by
  by_cases h0 : (d.inode inum).addrs k.castSucc = 0
  · exact ⟨d, by simp [Xv6Sched.truncDirect, h0], hok, fun _ => rfl⟩
  · set a := (d.inode inum).addrs k.castSucc with ha
    have hr : Refs sb d inum (.direct k) a := ⟨ht, h0, rfl⟩
    refine ⟨(markFree sb d a).setAddr inum k.castSucc 0, ?_, ?_, fun i => by simp⟩
    · simp only [Xv6Sched.truncDirect, ← ha, ne_eq, h0, not_false_eq_true, if_true, bfree_eq,
        hok.refs_used hr, Option.map_some]
    · have hrefs : ∀ {i s c}, Refs sb ((markFree sb d a).setAddr inum k.castSucc 0) i s c →
          Refs sb d i s c ∧ ¬ (i = inum ∧ s = .direct k) :=
        fun h => refs_clearDirect.mp ((refs_congr rfl rfl).mp h)
      refine hok.mono (fun h => (hrefs h).1) fun c hc hc' => ?_
      rw [inUse_setAddr, inUse_markFree]
      refine ⟨?_, hc⟩
      rintro rfl
      rcases hc' with hlt | ⟨j, t, hr'⟩
      · exact absurd (hok.refs_data hr).1 (Nat.not_le.mpr hlt)
      · obtain ⟨hr'', hne⟩ := hrefs hr'
        exact hne (hok.refs_inj hr'' hr)

/-- The nonzero words of an indirect block, in order: the blocks `itrunc` frees from it. -/
def entries (a : Fin NINDIRECT → Nat) : List Nat :=
  (List.finRange NINDIRECT).filterMap fun j => if a j ≠ 0 then some (a j) else none

theorem mem_entries {a : Fin NINDIRECT → Nat} : c ∈ entries a ↔ ∃ j, a j ≠ 0 ∧ a j = c := by
  simp [entries]

/-- The loop over the indirect block frees its nonzero words one after the other. -/
theorem foldlM_truncEntry (a : Fin NINDIRECT → Nat) (d : Fs) :
    (List.finRange NINDIRECT).foldlM (truncEntry sb a) d = (entries a).foldlM (bfree sb) d := by
  rw [entries, List.foldlM_filterMap]
  congr 1
  funext d j
  unfold truncEntry
  split_ifs <;> rfl

/-- Freeing distinct blocks in use clears exactly their bits, without a panic. -/
theorem bfrees_spec : ∀ (L : List Nat) (d : Fs), L.Nodup → (∀ b ∈ L, inUse sb d b) →
    ∃ d', L.foldlM (bfree sb) d = some d' ∧ d'.inode = d.inode ∧ d'.data = d.data ∧
      ∀ c, inUse sb d' c ↔ c ∉ L ∧ inUse sb d c
  | [], d, _, _ => ⟨d, rfl, rfl, rfl, fun c => by simp⟩
  | b :: L, d, hnd, hu => by
    rw [List.nodup_cons] at hnd
    -- the other blocks keep their bits when `b`'s is cleared
    have hu' : ∀ c ∈ L, inUse sb (markFree sb d b) c := fun c hc =>
      (inUse_markFree b c).mpr ⟨fun e => hnd.1 (e ▸ hc), hu c (List.mem_cons_of_mem b hc)⟩
    obtain ⟨d', h', hi, hd, hu''⟩ := bfrees_spec L (markFree sb d b) hnd.2 hu'
    refine ⟨d', ?_, hi, hd, fun c => ?_⟩
    · rw [List.foldlM_cons, bfree_eq, if_pos (hu b List.mem_cons_self)]
      exact h'
    · rw [hu'', inUse_markFree, List.mem_cons]
      tauto

/-- The second half of `itrunc` keeps the invariant and none of its `bfree`s panics: the entries
are distinct blocks in use, and the indirect block is none of them. -/
theorem FsOk.truncIndirect (hok : FsOk sb d) (ht : Allocated sb d inum) :
    ∃ d', truncIndirect sb inum d = some d' ∧ FsOk sb d' ∧ SameTypes d' d := by
  by_cases h0 : (d.inode inum).addrs (Fin.last NDIRECT) = 0
  · exact ⟨d, by simp [Xv6Sched.truncIndirect, h0], hok, fun _ => rfl⟩
  set ia := (d.inode inum).addrs (Fin.last NDIRECT) with hia
  have hind : Refs sb d inum .indirect ia := ⟨ht, h0, rfl⟩
  have hent : ∀ c ∈ entries (d.data ia), ∃ j, Refs sb d inum (.entry j) c := by
    intro c hc
    obtain ⟨j, hj0, rfl⟩ := mem_entries.mp hc
    exact ⟨j, ht, hj0, slotVal_entry hia.symm h0 j⟩
  have hnd : (entries (d.data ia)).Nodup := by
    refine List.Nodup.filterMap (fun j j' c hj hj' => ?_) (List.nodup_finRange _)
    have e : ∀ {j}, c ∈ (if d.data ia j ≠ 0 then some (d.data ia j) else none) →
        Refs sb d inum (.entry j) c := by
      intro j hj
      split_ifs at hj with hz
      · cases hj
        exact ⟨ht, hz, slotVal_entry hia.symm h0 j⟩
      · cases hj
    exact Slot.entry.inj (hok.refs_inj (e hj) (e hj')).2
  obtain ⟨d2, h2, hi2, hd2, hu2⟩ := bfrees_spec (entries (d.data ia)) d hnd fun c hc =>
    (hent c hc).elim fun _ hr => hok.refs_used hr
  have hnot : ia ∉ entries (d.data ia) := fun hm =>
    (hent ia hm).elim fun _ hr => absurd (hok.refs_inj hr hind).2 nofun
  have hu : inUse sb d2 ia := (hu2 ia).mpr ⟨hnot, hok.refs_used hind⟩
  refine ⟨(markFree sb d2 ia).setAddr inum (Fin.last NDIRECT) 0, ?_, ?_, fun i => ?_⟩
  · simp only [Xv6Sched.truncIndirect, ← hia, ne_eq, h0, not_false_eq_true, if_true]
    rw [foldlM_truncEntry, h2]
    show (bfree sb d2 ia).bind (fun d => some (d.setAddr inum (Fin.last NDIRECT) 0)) = _
    rw [bfree_eq, if_pos hu]
    rfl
  · have hi' : ((markFree sb d2 ia).setAddr inum (Fin.last NDIRECT) 0).inode =
        (d.setAddr inum (Fin.last NDIRECT) 0).inode := by
      rw [Fs.setAddr, Fs.setAddr, setInode_inode, setInode_inode, markFree_inode, hi2]
    have hd' : ((markFree sb d2 ia).setAddr inum (Fin.last NDIRECT) 0).data =
        (d.setAddr inum (Fin.last NDIRECT) 0).data := hd2
    have hrefs : ∀ {i s c}, Refs sb ((markFree sb d2 ia).setAddr inum (Fin.last NDIRECT) 0) i s c →
        Refs sb d i s c ∧ (i = inum → ∃ k, s = .direct k) :=
      fun h => refs_clearIndirect.mp ((refs_congr hi' hd').mp h)
    refine hok.mono (fun h => (hrefs h).1) fun c hc hc' => ?_
    rw [inUse_setAddr, inUse_markFree, hu2]
    rcases hc' with hlt | ⟨j, t, hr'⟩
    · -- metadata is neither the indirect block nor one of its entries
      have hge : ∀ {i s}, Refs sb d i s c → False := fun hr =>
        absurd (hok.refs_data hr).1 (Nat.not_le.mpr hlt)
      refine ⟨fun e => hge (e ▸ hind), fun hm => ?_, hc⟩
      obtain ⟨j, hr⟩ := hent c hm
      exact hge hr
    · obtain ⟨hr'', hdir⟩ := hrefs hr'
      refine ⟨fun e => ?_, fun hm => ?_, hc⟩
      · obtain ⟨rfl, rfl⟩ := hok.refs_inj hr'' (e ▸ hind)
        obtain ⟨k, e'⟩ := hdir rfl
        cases e'
      · obtain ⟨j', hr⟩ := hent c hm
        obtain ⟨rfl, rfl⟩ := hok.refs_inj hr'' hr
        obtain ⟨k, e'⟩ := hdir rfl
        cases e'
  · rw [setAddr_type]
    exact congrArg Dinode.type (congrFun hi2 i)

/-- **`itrunc` of an allocated inode never panics**, and it keeps the invariant. -/
theorem FsOk.itrunc (hok : FsOk sb d) (ht : Allocated sb d inum) :
    ∃ d', itrunc sb d inum = some d' ∧ FsOk sb d' ∧ SameTypes d' d := by
  -- the first loop: each pass keeps the invariant and the inode allocated
  obtain ⟨d1, h1, hok1, ht1⟩ := @Scan.foldlM_inv (Fin NDIRECT) Fs
    (fun d1 => FsOk sb d1 ∧ SameTypes d1 d) (Xv6Sched.truncDirect sb inum) (List.finRange NDIRECT)
    (fun d1 k _ hP => (hP.1.truncDirect (hP.2.allocated.mpr ht) k).elim
      fun d2 ⟨h2, hok2, ht2⟩ => ⟨d2, h2, hok2, ht2.trans hP.2⟩) d ⟨hok, fun _ => rfl⟩
  obtain ⟨d2, h2, hok2, ht2⟩ := hok1.truncIndirect (ht1.allocated.mpr ht)
  refine ⟨d2.setSize inum 0, ?_, hok2.setInode_of rfl rfl, fun i => ?_⟩
  · show ((List.finRange NDIRECT).foldlM (Xv6Sched.truncDirect sb inum) d).bind
        (fun d => (Xv6Sched.truncIndirect sb inum d).bind fun d => some (d.setSize inum 0)) = _
    rw [h1, Option.bind_some, h2, Option.bind_some]
  · rw [setSize_type, ht2, ht1]

theorem refs_setType_zero : Refs sb (d.setType inum 0) i s c ↔ Refs sb d i s c ∧ i ≠ inum := by
  rw [Fs.setType, refs_setInode]
  split_ifs with hi
  · exact ⟨fun h => absurd rfl h.1.2, fun h => absurd hi h.2⟩
  · exact ⟨fun h => ⟨h, hi⟩, fun h => h.1⟩

/-- The disk effect of the last `iput` of an allocated inode never panics and keeps the
invariant. -/
theorem FsOk.iput (hok : FsOk sb d) (ht : Allocated sb d inum) :
    ∃ d', iput sb d inum = some d' ∧ FsOk sb d' := by
  unfold Xv6Sched.iput
  split_ifs with hn
  · obtain ⟨d1, h1, hok1, -⟩ := hok.itrunc ht
    refine ⟨d1.setType inum 0, by rw [h1]; rfl, ?_⟩
    exact hok1.mono (fun h => (refs_setType_zero.mp h).1) fun _ hc _ => hc
  · exact ⟨d, rfl, hok⟩

theorem FsOk.ialloc (hok : FsOk sb d) {type : Nat} (h : ialloc sb d type = some (inum, d')) :
    FsOk sb d' := by
  obtain ⟨inum0, hf, he⟩ := Option.map_eq_some_iff.mp h
  simp only [Prod.mk.injEq] at he
  obtain ⟨rfl, rfl⟩ := he
  have hfree : (d.inode inum0).type = 0 := by simpa using List.find?_some hf
  refine hok.mono (fun {i s c} h => ?_) fun _ hc _ => hc
  rw [refs_setInode] at h
  split_ifs at h with hi
  · -- a fresh inode holds no block
    have hv : slotVal d.data { Dinode.zero with type := type } s = 0 := by
      cases s <;> simp [slotVal, Dinode.zero]
    rw [hv] at h
    exact absurd h.2.2.symm h.2.1
  · exact h

/-- **Every call keeps the invariant.** -/
theorem FsOk.fsStep (hok : FsOk sb d) {op : FsOp} (h : fsStep sb d op = some d') : FsOk sb d' := by
  cases op with
  | ialloc type =>
    obtain ⟨⟨inum, d1⟩, h1, rfl⟩ := Option.map_eq_some_iff.mp h
    exact hok.ialloc h1
  | writei inum off n copyin =>
    rw [Xv6Sched.fsStep] at h
    split_ifs at h with ht
    obtain ⟨⟨r, d1⟩, h1, rfl⟩ := Option.map_eq_some_iff.mp h
    exact (hok.writei (inodeOk_iff.mp ht) h1).1
  | readi inum off n copyout =>
    rw [Xv6Sched.fsStep] at h
    split_ifs at h with ht
    obtain ⟨⟨r, d1⟩, h1, rfl⟩ := Option.map_eq_some_iff.mp h
    exact (hok.readi (inodeOk_iff.mp ht) h1).1
  | itrunc inum =>
    rw [Xv6Sched.fsStep] at h
    split_ifs at h with ht
    obtain ⟨d1, h1, hok1, -⟩ := hok.itrunc (inodeOk_iff.mp ht)
    rw [h1, Option.some.injEq] at h
    exact h ▸ hok1
  | iput inum =>
    rw [Xv6Sched.fsStep] at h
    split_ifs at h with ht
    obtain ⟨d1, h1, hok1⟩ := hok.iput (inodeOk_iff.mp ht)
    rw [h1, Option.some.injEq] at h
    exact h ▸ hok1
  | setNlink inum nlink =>
    rw [Xv6Sched.fsStep] at h
    split_ifs at h with ht
    rw [Option.some.injEq] at h
    exact h ▸ hok.setInode_of rfl rfl

theorem FsOk.reachable {d0 : Fs} (h0 : FsOk sb d0) (h : FsReachable sb d0 d) : FsOk sb d :=
  LTS.Reachable.inv h0 (fun _ _ _ hok hs => hok.fsStep hs) h

/-- From a disk satisfying the invariant, along every sequence of completed calls: the invariant
holds, `balloc` never hands out a block some allocated inode holds, and `itrunc` of an allocated
inode never panics (its only panic is `bfree`'s `freeing free block`). -/
theorem fsReachable_blocks {d0 : Fs} (h0 : FsOk sb d0) (h : FsReachable sb d0 d) :
    FsOk sb d ∧ (∀ a d', balloc sb d = some (a, d') → ∀ i s, ¬ Refs sb d i s a) ∧
      ∀ inum, Allocated sb d inum → ∃ d', itrunc sb d inum = some d' := by
  have hok := h0.reachable h
  refine ⟨hok, fun a d' hb i s hr => ?_, fun inum ht => ?_⟩
  · obtain ⟨-, hr2, hfresh, -⟩ := hok.balloc hb
    exact hfresh i s (hr2.mpr hr)
  · obtain ⟨d', h', -⟩ := hok.itrunc ht
    exact ⟨d', h'⟩

end Trunc

end Xv6Sched
