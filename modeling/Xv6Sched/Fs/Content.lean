import Xv6Sched.Fs.Blocks

/-!
# Xv6Sched.Fs.Content — the bytes of a file, and what `writei` and `readi` do to them

A block is kept as its `NINDIRECT` words; its bytes are those words read little-endian, as
RISC-V lays out the `uint`s of `(uint*)bp->data` (`blockByte`).  Block `bn` of a file is its
direct slot `bn` or entry `bn - NDIRECT` of its indirect block (`blockSlot`); a slot holding no
block reads as the zeroed block `bmap` would allocate for it (`slotData`).  The content of inode
`inum` is its bytes `0 .. size` read so (`fileByte`, `content`).

`bmap` changes no file's bytes: every block it allocates is zeroed and goes into a slot that held
none (`bmap_slotData`).  So `writei`'s loop changes exactly the bytes it copies, each from the
source at its offset (`writeLoop_bytes`), and `readi`'s loop hands `copyout` exactly the bytes of
the content (`readLoop_expect`).  A copy is a parameter of the model: `CopiesFrom` says what a
copy from a source does to a block, and `copyinFrom` is `memmove` from a source that can be read
whole.
-/

namespace Xv6Sched

/-! ### Bytes of a block -/

/-- Byte `i` of a block: byte `i % 4` of word `i / 4`, least significant first. -/
def blockByte (blk : Fin NINDIRECT → Nat) (i : Nat) : UInt8 :=
  if h : i / 4 < NINDIRECT then UInt8.ofNat (blk ⟨i / 4, h⟩ / 256 ^ (i % 4)) else 0

/-- The block with bytes `f`: each word its four bytes, least significant first. -/
def ofBytes (f : Nat → UInt8) : Fin NINDIRECT → Nat := fun w =>
  (f (4 * w)).toNat + 256 * (f (4 * w + 1)).toNat + 65536 * (f (4 * w + 2)).toNat +
    16777216 * (f (4 * w + 3)).toNat

@[simp] theorem blockByte_zero (i : Nat) : blockByte (fun _ => 0) i = 0 := by
  unfold blockByte
  split_ifs <;> simp

theorem blockByte_ofBytes (f : Nat → UInt8) {i : Nat} (hi : i < BSIZE) : blockByte (ofBytes f) i = f i := by
  have hw : i / 4 < NINDIRECT := by unfold NINDIRECT BSIZE at *; omega
  rw [blockByte, dif_pos hw, ofBytes]
  apply UInt8.toNat_inj.mp
  rw [UInt8.toNat_ofNat']
  obtain ⟨q, r, hr, rfl⟩ : ∃ q r, r < 4 ∧ i = 4 * q + r :=
    ⟨i / 4, i % 4, Nat.mod_lt _ (by decide), (Nat.div_add_mod i 4).symm⟩
  have hq : (4 * q + r) / 4 = q := by omega
  have hr' : (4 * q + r) % 4 = r := by omega
  simp only [hq, hr']
  have h0 := (f (4 * q)).toNat_lt
  have h1 := (f (4 * q + 1)).toNat_lt
  have h2 := (f (4 * q + 2)).toNat_lt
  have h3 := (f (4 * q + 3)).toNat_lt
  -- byte `r` of the word, one case per byte
  interval_cases r <;> norm_num at h0 h1 h2 h3 ⊢ <;> omega

/-! ### Copies -/

/-- What a copy from the source `src` does when it succeeds: the block's bytes `boff .. boff + m`
become the source's bytes from `tot`, and the others stay. -/
def CopiesFrom (src : Nat → UInt8) (copyin : CopyIn) : Prop :=
  ∀ tot boff m blk blk', boff + m ≤ BSIZE → copyin tot boff m blk = some blk' →
    ∀ i < BSIZE, blockByte blk' i = if boff ≤ i ∧ i < boff + m then src (tot + (i - boff)) else blockByte blk i

/-- `either_copyin` from kernel memory holding `src`: `memmove(bp->data + boff, src + tot, m)`. -/
def copyinFrom (src : Nat → UInt8) : CopyIn := fun tot boff m blk =>
  some (ofBytes fun i => if boff ≤ i ∧ i < boff + m then src (tot + (i - boff)) else blockByte blk i)

theorem copiesFrom_copyinFrom (src : Nat → UInt8) : CopiesFrom src (copyinFrom src) := by
  intro tot boff m blk blk' _ h i hi
  cases h
  exact blockByte_ofBytes _ hi

/-- `either_copyout` to a destination that takes exactly the bytes `expected`: the copy of the
block's bytes `boff .. boff + m` to offset `tot` succeeds when they are `expected` there. -/
def copyoutExpect (expected : Nat → UInt8) : CopyOut := fun tot boff m blk =>
  decide (∀ k < m, blockByte blk (boff + k) = expected (tot + k))

/-! ### The bytes of a file -/

/-- The slot that holds block `bn` of a file: direct, or an entry of the indirect block; none past
`MAXFILE`. -/
def blockSlot (bn : Nat) : Option Slot :=
  if h : bn < NDIRECT then some (.direct ⟨bn, h⟩)
  else if h' : bn - NDIRECT < NINDIRECT then some (.entry ⟨bn - NDIRECT, h'⟩) else none

/-- The words of the block slot `s` of inode `j` holds; a slot without a block reads as the zeroed
block `bmap` would put there. -/
def slotData (d : Fs) (j : Nat) (s : Slot) : Fin NINDIRECT → Nat :=
  if slotVal d.data (d.inode j) s = 0 then fun _ => 0 else d.data (slotVal d.data (d.inode j) s)

/-- Byte `o` of inode `j`'s content. -/
def fileByte (d : Fs) (j o : Nat) : UInt8 :=
  match blockSlot (o / BSIZE) with
  | some s => blockByte (slotData d j s) (o % BSIZE)
  | none => 0

/-- The content of inode `j`: its bytes `0 .. size`. -/
def content (d : Fs) (j : Nat) : List UInt8 := (List.range (d.inode j).size).map (fileByte d j)

theorem blockSlot_inj {bn bn' : Nat} {s : Slot} (h : blockSlot bn = some s) (h' : blockSlot bn' = some s) :
    bn = bn' := by
  unfold blockSlot at h h'
  split_ifs at h h' <;> cases h <;> simp_all
  omega

theorem blockSlot_ne_indirect {bn : Nat} {s : Slot} (h : blockSlot bn = some s) : s ≠ .indirect := by
  unfold blockSlot at h
  split_ifs at h <;> cases h <;> nofun

theorem blockSlot_isSome {bn : Nat} (h : bn < MAXFILE) : ∃ s, blockSlot bn = some s := by
  unfold blockSlot
  split_ifs with h1 h2
  · exact ⟨_, rfl⟩
  · exact ⟨_, rfl⟩
  · unfold MAXFILE at h
    omega

/-- The bytes of every file that depends only on the words its slots hold. -/
theorem fileByte_congr {d' : Fs} {j : Nat} (h : ∀ s, s ≠ .indirect → slotData d' j s = slotData d j s) (o : Nat) :
    fileByte d' j o = fileByte d j o := by
  unfold fileByte
  split
  · rename_i s hs
    rw [h s (blockSlot_ne_indirect hs)]
  · rfl

/-! ### What the block layer's writes do to the bytes of files -/

section Slots

variable {sb : Superblock} {d d' : Fs} {inum j : Nat} {s : Slot}

/-- `iupdate` of a new size changes no slot. -/
theorem slotData_setSize {m : Nat} : slotData (d.setSize inum m) j s = slotData d j s := by
  by_cases hj : j = inum
  · subst hj
    have hv : slotVal (d.setSize j m).data ((d.setSize j m).inode j) s = slotVal d.data (d.inode j) s := by
      cases s <;> simp [Fs.setSize, slotVal]
    simp only [slotData, hv]
    rfl
  · simp [slotData, Fs.setSize, hj]

/-- A write that keeps inode `j`'s addresses and the words of every block `j` holds keeps what
`j`'s slots read. -/
theorem slotData_congr (hj : Allocated sb d j) (ha : (d'.inode j).addrs = (d.inode j).addrs)
    (hd : ∀ s b, Refs sb d j s b → d'.data b = d.data b) (hs : s ≠ .indirect) :
    slotData d' j s = slotData d j s := by
  have hv : slotVal d'.data (d'.inode j) s = slotVal d.data (d.inode j) s := by
    cases s with
    | direct k => simp [slotVal, ha]
    | indirect => exact absurd rfl hs
    | entry jj =>
      simp only [slotVal, ha]
      by_cases hz : (d.inode j).addrs (Fin.last NDIRECT) = 0
      · simp [hz]
      · rw [if_neg hz, if_neg hz, hd .indirect _ ⟨hj, hz, rfl⟩]
  unfold slotData
  rw [hv]
  split_ifs with h0
  · rfl
  · exact hd s _ ⟨hj, h0, rfl⟩

/-- A write of a block that is not inode `j`'s indirect block changes no value of `j`'s slots. -/
theorem slotVal_setData {b : Nat} {blk : Fin NINDIRECT → Nat} (hj : Allocated sb d j)
    (h : ¬ Refs sb d j .indirect b) :
    slotVal (d.setData b blk).data ((d.setData b blk).inode j) s = slotVal d.data (d.inode j) s := by
  cases s with
  | direct k => rfl
  | indirect => rfl
  | entry jj =>
    simp only [slotVal, setData_inode, setData_data]
    by_cases hz : (d.inode j).addrs (Fin.last NDIRECT) = 0
    · simp [hz]
    · have hne : (d.inode j).addrs (Fin.last NDIRECT) ≠ b := fun e => h ⟨hj, e ▸ hz, e⟩
      simp [hz, Function.update_of_ne hne]

/-- `writei`'s write of a block `bmap` returned: the slot that holds it reads the new words, and
no other slot of any file changes. -/
theorem slotData_setData (hok : FsOk sb d) {addr : Nat} {s0 : Slot} (hr : Refs sb d inum s0 addr)
    (hs0 : s0 ≠ .indirect) (blk : Fin NINDIRECT → Nat) (hj : Allocated sb d j) :
    slotData (d.setData addr blk) j s = if j = inum ∧ s = s0 then blk else slotData d j s := by
  -- `addr` is no file's indirect block
  have hind : ¬ Refs sb d j .indirect addr := fun h => hs0 (hok.refs_inj hr h).2
  unfold slotData
  rw [slotVal_setData hj hind, setData_data]
  split_ifs with h0 hjs hjs
  · obtain ⟨rfl, rfl⟩ := hjs
    exact absurd (hr.2.2 ▸ h0) hr.2.1
  · rfl
  · obtain ⟨rfl, rfl⟩ := hjs
    rw [hr.2.2, Function.update_self]
  · have hne : slotVal d.data (d.inode j) s ≠ addr := fun e => by
      obtain ⟨rfl, rfl⟩ := hok.refs_inj ⟨hj, e ▸ h0, e⟩ hr
      exact hjs ⟨rfl, rfl⟩
    rw [Function.update_of_ne hne]

/-- A zeroed block put into an empty direct slot reads as the slot did. -/
theorem slotData_setDirect {k : Fin NDIRECT} {a : Nat} (hz : (d.inode inum).addrs k.castSucc = 0)
    (hzero : d.data a = fun _ => 0) : slotData (d.setAddr inum k.castSucc a) j s = slotData d j s := by
  by_cases hj : j = inum
  · subst hj
    unfold slotData
    simp only [Fs.setAddr, setInode_inode, Function.update_self, setInode_data, slotVal_setDirect]
    split_ifs with h1 h2 h3 <;> simp_all [slotVal]
  · simp [slotData, Fs.setAddr, hj]

/-- A zeroed indirect block put into an empty indirect slot: its entries read as zero, as they
did. -/
theorem slotData_setIndirect {a : Nat} (hz : (d.inode inum).addrs (Fin.last NDIRECT) = 0)
    (hzero : d.data a = fun _ => 0) (hs : s ≠ .indirect) :
    slotData (d.setAddr inum (Fin.last NDIRECT) a) j s = slotData d j s := by
  by_cases hj : j = inum
  · subst hj
    unfold slotData
    simp only [Fs.setAddr, setInode_inode, Function.update_self, setInode_data, slotVal_setIndirect]
    cases s with
    | direct k => rfl
    | indirect => exact absurd rfl hs
    | entry jj => simp [slotVal, hz, hzero]
  · simp [slotData, Fs.setAddr, hj]

/-- A zeroed block put into an empty entry of inode `inum`'s indirect block `ia`. -/
theorem slotData_setEntry (hok : FsOk sb d) {ia a : Nat} {jj : Fin NINDIRECT}
    (hind : Refs sb d inum .indirect ia) (hz : d.data ia jj = 0) (hfresh : ∀ i s, ¬ Refs sb d i s a)
    (hzero : d.data a = fun _ => 0) (hj : Allocated sb d j) (hs : s ≠ .indirect) :
    slotData (d.setData ia (Function.update (d.data ia) jj a)) j s = slotData d j s := by
  have hia : a ≠ ia := fun e => hfresh inum .indirect (e ▸ hind)
  -- a block some slot other than an indirect one holds is not `ia`
  have hnot : ∀ s' b, s' ≠ .indirect → Refs sb d j s' b → b ≠ ia := fun s' b hs' hb e =>
    hs' (hok.refs_inj hb (e ▸ hind)).2
  by_cases hji : j = inum
  · subst hji
    obtain ⟨-, hia0, hiaeq⟩ := hind
    cases s with
    | direct k =>
      -- a direct slot reads no indirect block, and holds another block than `ia`
      unfold slotData
      simp only [setData_inode, setData_data, slotVal]
      by_cases h0 : (d.inode j).addrs k.castSucc = 0
      · simp [h0]
      · simp [h0, Function.update_of_ne (hnot _ _ hs ⟨hj, h0, rfl⟩)]
    | indirect => exact absurd rfl hs
    | entry jj' =>
      unfold slotData
      simp only [setData_inode, setData_data, slotVal_entry hiaeq hia0, Function.update_self]
      by_cases hjj : jj' = jj
      · subst hjj
        rw [Function.update_self, hz, Function.update_of_ne hia, hzero]
        simp
      · rw [Function.update_of_ne hjj]
        split_ifs with h0
        · rfl
        · exact Function.update_of_ne (hnot _ _ hs ⟨hj, h0, by rw [slotVal_entry hiaeq hia0]⟩) _ _
  · have hnind : ¬ Refs sb d j .indirect ia := fun h => hji (hok.refs_inj h hind).1
    unfold slotData
    rw [slotVal_setData hj hnind, setData_data]
    split_ifs with h0
    · rfl
    · exact Function.update_of_ne (hnot _ _ hs ⟨hj, h0, rfl⟩) _ _

/-- `balloc` changes no slot's words: the block it zeroes is held by none. -/
theorem slotData_balloc (hok : FsOk sb d) {a : Nat} (hb : balloc sb d = some (a, d')) (hj : Allocated sb d j)
    (hs : s ≠ .indirect) : slotData d' j s = slotData d j s := by
  obtain ⟨-, -, hfresh, -, -, hi, -, hd⟩ := hok.balloc hb
  refine slotData_congr hj (by rw [hi]) (fun s' b hb' => hd b fun e => ?_) hs
  -- the block handed out was held by no slot
  exact (show ¬ Refs sb d j s' a from fun hr => hfresh j s' ((hok.balloc hb).2.1.mpr hr)) (e ▸ hb')

/-- The indirect block `bmap` loads, allocating it when missing, changes no file's bytes. -/
theorem loadIndirect_slotData (hok : FsOk sb d) (ht : Allocated sb d inum) {ia : Nat} {d1 : Fs}
    (h : allocSlot sb d ((d.inode inum).addrs (Fin.last NDIRECT))
      (fun addr d => d.setAddr inum (Fin.last NDIRECT) addr) = some (ia, d1)) :
    (∀ j, Allocated sb d j → ∀ s, s ≠ .indirect → slotData d1 j s = slotData d j s) ∧
      ∀ j, (d1.inode j).size = (d.inode j).size := by
  rcases allocSlot_cases h with ⟨-, rfl, rfl⟩ | ⟨h0, d2, hb, rfl⟩
  · exact ⟨fun _ _ _ _ => rfl, fun _ => rfl⟩
  · obtain ⟨-, -, -, -, -, hi2, hz2, -⟩ := hok.balloc hb
    refine ⟨fun j hj s hs => ?_, fun j => ?_⟩
    · rw [slotData_setIndirect (by rw [hi2]; exact h0) hz2 hs, slotData_balloc hok hb hj hs]
    · by_cases hji : j = inum
      · subst hji
        simp [Fs.setAddr, hi2]
      · simp [Fs.setAddr, hji, hi2]

/-- **`bmap` changes no file's bytes**: the block it returns is the one the slot of `bn` holds, and
every block it allocates is zeroed and goes into a slot that held none. -/
theorem bmap_slotData (hok : FsOk sb d) (ht : Allocated sb d inum) {bn addr : Nat} {s0 : Slot}
    (hs0 : blockSlot bn = some s0) (h : bmap sb d inum bn = some (addr, d')) :
    Refs sb d' inum s0 addr ∧ (∀ j, Allocated sb d j → ∀ s, s ≠ .indirect → slotData d' j s = slotData d j s) ∧
      ∀ j, (d'.inode j).size = (d.inode j).size := by
  unfold Xv6Sched.bmap at h
  unfold blockSlot at hs0
  split_ifs at h hs0 with hd hi
  · -- a direct block
    cases hs0
    let k : Fin NDIRECT := ⟨bn, hd⟩
    change allocSlot sb d ((d.inode inum).addrs k.castSucc)
      (fun addr d => d.setAddr inum k.castSucc addr) = some (addr, d') at h
    rcases allocSlot_cases h with ⟨h0, rfl, rfl⟩ | ⟨h0, d1, hb, rfl⟩
    · exact ⟨⟨ht, h0, rfl⟩, fun _ _ _ _ => rfl, fun _ => rfl⟩
    · obtain ⟨hok1, -, hfresh, hu, hdata, hi1, hz1, -⟩ := hok.balloc hb
      have hz : (d1.inode inum).addrs k.castSucc = 0 := by rw [hi1]; exact h0
      refine ⟨(hok1.setDirect ((Allocated.congr hi1).mpr ht) hz hfresh hu hdata).2,
        fun j hj s hs => ?_, fun j => ?_⟩
      · rw [slotData_setDirect hz hz1, slotData_balloc hok hb hj hs]
      · by_cases hji : j = inum
        · subst hji
          simp [Fs.setAddr, hi1]
        · simp [Fs.setAddr, hji, hi1]
  · -- an entry of the indirect block
    cases hs0
    obtain ⟨⟨ia, d1⟩, h1, h2⟩ := Option.bind_eq_some_iff.mp h
    obtain ⟨hok1, ht1, hind⟩ := hok.loadIndirect ht h1
    obtain ⟨hsd1, hsz1⟩ := loadIndirect_slotData hok ht h1
    have ha1 : Allocated sb d1 inum := (ht1.allocated).mpr ht
    let jj : Fin NINDIRECT := ⟨bn - NDIRECT, hi⟩
    change allocSlot sb d1 (d1.data ia jj)
      (fun addr d => d.setData ia (Function.update (d1.data ia) jj addr)) = some (addr, d') at h2
    rcases allocSlot_cases h2 with ⟨h0, rfl, rfl⟩ | ⟨h0, d2, hb, rfl⟩
    · exact ⟨⟨ha1, h0, slotVal_entry hind.2.2 hind.2.1 jj⟩, hsd1, hsz1⟩
    · obtain ⟨hok2, hr2, hfresh, hu, hdata, hi2, hz2, hd2⟩ := hok1.balloc hb
      have hind2 : Refs sb d2 inum .indirect ia := hr2.mpr hind
      -- `ia` is in use, so `balloc` did not hand it out: its words are those `bmap` read
      have hne : ia ≠ addr := fun e => hfresh inum .indirect (e ▸ hind2)
      have hz : d2.data ia jj = 0 := by rw [hd2 ia hne]; exact h0
      rw [← hd2 ia hne]
      refine ⟨(hok2.setEntry hind2 hz hfresh hu hdata).2, fun j hj s hs => ?_, fun j => ?_⟩
      · have hj1 : Allocated sb d1 j := ht1.allocated.mpr hj
        have hj2 : Allocated sb d2 j := (Allocated.congr hi2).mpr hj1
        rw [slotData_setEntry hok2 hind2 hz hfresh hz2 hj2 hs, slotData_balloc hok1 hb hj1 hs, hsd1 j hj s hs]
      · rw [setData_inode, hi2, hsz1]

/-- One write of `writei`'s loop into the block `bmap` returned for block `bn`: the bytes the copy
covers come from the source, and no other byte of any file changes. -/
theorem fileByte_setData (hok : FsOk sb d) {addr bn tot boff m : Nat} {s0 : Slot}
    {src : Nat → UInt8} {copyin : CopyIn} {blk : Fin NINDIRECT → Nat}
    (hr : Refs sb d inum s0 addr) (hs0 : blockSlot bn = some s0) (hcp : CopiesFrom src copyin)
    (hc : copyin tot boff m (d.data addr) = some blk) (hbm : boff + m ≤ BSIZE) (hj : Allocated sb d j) (o : Nat) :
    fileByte (d.setData addr blk) j o =
      if j = inum ∧ o / BSIZE = bn ∧ boff ≤ o % BSIZE ∧ o % BSIZE < boff + m then src (tot + (o % BSIZE - boff))
      else fileByte d j o := by
  have hne : s0 ≠ .indirect := blockSlot_ne_indirect hs0
  have hold : slotData d inum s0 = d.data addr := by
    rw [slotData, hr.2.2, if_neg hr.2.1]
  unfold fileByte
  split
  · rename_i s hs
    rw [slotData_setData hok hr hne blk hj]
    by_cases hjs : j = inum ∧ s = s0
    · obtain ⟨rfl, rfl⟩ := hjs
      have hbn : o / BSIZE = bn := blockSlot_inj hs hs0
      have hlt : o % BSIZE < BSIZE := Nat.mod_lt _ (by decide)
      rw [if_pos ⟨rfl, rfl⟩, hcp tot boff m _ blk hbm hc _ hlt, hold]
      simp only [hbn, true_and]
    · rw [if_neg hjs, if_neg]
      rintro ⟨rfl, hbn, -⟩
      exact hjs ⟨rfl, Option.some.inj ((hbn ▸ hs).symm.trans hs0)⟩
  · rename_i hs
    rw [if_neg]
    rintro ⟨-, hbn, -⟩
    rw [hbn, hs0] at hs
    cases hs

/-- The bytes of one chunk of `writei` and `readi`: `m` bytes from `off`, within its block. -/
theorem chunk_iff {off o m : Nat} (hm : off % BSIZE + m ≤ BSIZE) :
    (o / BSIZE = off / BSIZE ∧ off % BSIZE ≤ o % BSIZE ∧ o % BSIZE < off % BSIZE + m) ↔ (off ≤ o ∧ o < off + m) := by
  unfold BSIZE at *
  omega

theorem chunk_offset {off o m : Nat} (hm : off % BSIZE + m ≤ BSIZE) (h : off ≤ o ∧ o < off + m) :
    o % BSIZE - off % BSIZE = o - off := by
  unfold BSIZE at *
  omega

end Slots

/-! ### Panics -/

section Panics

variable {sb : Superblock} {d : Fs} {inum : Nat}

/-- The blocks `[off, off + n)` meets: the iterations of the loops of `writei` and `readi`. -/
def blocksTouched (off n : Nat) : Nat := if n = 0 then 0 else (off + n - 1) / BSIZE - off / BSIZE + 1

/-- One chunk of either loop takes the range to the start of the next block, or to its end. -/
theorem blocksTouched_step (off : Nat) {len : Nat} (h : 0 < len) :
    blocksTouched (off + min len (BSIZE - off % BSIZE)) (len - min len (BSIZE - off % BSIZE)) + 1 =
      blocksTouched off len := by
  unfold blocksTouched BSIZE
  split_ifs <;> omega

theorem blocksTouched_pos (off : Nat) {n : Nat} (h : 0 < n) : 0 < blocksTouched off n := by
  unfold blocksTouched
  rw [if_neg (by omega)]
  omega

theorem blocksTouched_mono {off n n' : Nat} (h : n' ≤ n) : blocksTouched off n' ≤ blocksTouched off n := by
  unfold blocksTouched BSIZE
  split_ifs <;> omega

/-- `allocSlot` panics only with no block free. -/
theorem allocSlot_eq_none {addr : Nat} {write : Nat → Fs → Fs} (h : allocSlot sb d addr write = none) :
    freeBlocks sb d = 0 := by
  unfold allocSlot at h
  split_ifs at h
  by_contra h0
  exact balloc_ne_none (Nat.pos_of_ne_zero h0) (Option.map_eq_none_iff.mp h)

/-- `allocSlot` takes at most one block, when its write keeps the bitmap. -/
theorem freeBlocks_allocSlot {addr a : Nat} {write : Nat → Fs → Fs} {d' : Fs}
    (h : allocSlot sb d addr write = some (a, d')) (hw : ∀ a d, (write a d).bitmap = d.bitmap) :
    freeBlocks sb d ≤ freeBlocks sb d' + 1 := by
  unfold allocSlot at h
  split_ifs at h
  · obtain ⟨⟨b, d1⟩, hb, he⟩ := Option.map_eq_some_iff.mp h
    cases he
    rw [freeBlocks_congr (hw b d1), ← freeBlocks_balloc hb]
  · cases h
    omega

/-- `bmap` of a block below `MAXFILE` takes at most two blocks, the indirect block and its entry,
and so panics only with fewer than two free. -/
theorem bmap_eq_none {bn : Nat} {s0 : Slot} (hs0 : blockSlot bn = some s0) (h : bmap sb d inum bn = none) :
    freeBlocks sb d < 2 := by
  unfold Xv6Sched.bmap at h
  unfold blockSlot at hs0
  split_ifs at h hs0 with hd hi
  · have := allocSlot_eq_none h
    omega
  · cases h1 : allocSlot sb d ((d.inode inum).addrs (Fin.last NDIRECT))
        (fun addr d => d.setAddr inum (Fin.last NDIRECT) addr) with
    | none =>
      have := allocSlot_eq_none h1
      omega
    | some x =>
      obtain ⟨ia, d1⟩ := x
      rw [h1] at h
      simp only [Option.bind_some] at h
      have h2 := allocSlot_eq_none h
      have h3 := freeBlocks_allocSlot h1 fun _ _ => rfl
      omega

theorem freeBlocks_bmap {bn a : Nat} {d' : Fs} (h : bmap sb d inum bn = some (a, d')) :
    freeBlocks sb d ≤ freeBlocks sb d' + 2 := by
  unfold Xv6Sched.bmap at h
  split_ifs at h with hd hi
  · have := freeBlocks_allocSlot h fun _ _ => rfl
    omega
  · obtain ⟨⟨ia, d1⟩, h1, h2⟩ := Option.bind_eq_some_iff.mp h
    have := freeBlocks_allocSlot h1 fun _ _ => rfl
    have := freeBlocks_allocSlot h2 fun _ _ => rfl
    omega

end Panics

/-! ### `writei` -/

section Write

variable {sb : Superblock} {d d' : Fs} {inum : Nat}

/-- **The loop of `writei`**, from `tot` bytes copied at `off = off0 + tot`: it changes exactly the
bytes it copies, each from the source at its offset from `off0`, and copies all `n` when every
copy succeeds. -/
theorem writeLoop_bytes {n tot off off0 tot' off' : Nat} {src : Nat → UInt8} {copyin : CopyIn}
    (hcp : CopiesFrom src copyin) (hok : FsOk sb d) (ht : Allocated sb d inum) (hoff : off = off0 + tot)
    (hend : off0 + n ≤ MAXFILE * BSIZE) (htot : tot ≤ n)
    (h : writeLoop sb inum n copyin tot off d = some (tot', off', d')) :
    tot ≤ tot' ∧ tot' ≤ n ∧ off' = off0 + tot' ∧ FsOk sb d' ∧ SameTypes d' d ∧
      (∀ j, Allocated sb d j → ∀ o, fileByte d' j o =
        if j = inum ∧ off ≤ o ∧ o < off0 + tot' then src (o - off0) else fileByte d j o) ∧
      (∀ j, (d'.inode j).size = (d.inode j).size) ∧
      ((∀ t b m blk, (copyin t b m blk).isSome) → tot' = n) := by
  induction tot, off, d using writeLoop.induct sb inum n copyin with
  | case1 tot off d htot' hb =>
    rw [Xv6Sched.writeLoop, dif_pos htot', hb] at h
    cases h
  | case2 tot off d htot' addr d1 hb hc =>
    -- the copy fails: the bytes copied so far, over the disk `bmap` left
    have hnr : ¬ ∀ t b m blk, (copyin t b m blk).isSome := fun hr => by
      simpa [hc] using hr tot (off % BSIZE) (min (n - tot) (BSIZE - off % BSIZE)) (d1.data addr)
    rw [Xv6Sched.writeLoop, dif_pos htot', hb] at h
    simp only [hc, Option.some.injEq, Prod.mk.injEq] at h
    obtain ⟨rfl, rfl, rfl⟩ := h
    have hbn : off / BSIZE < MAXFILE := by unfold BSIZE at *; omega
    obtain ⟨s0, hs0⟩ := blockSlot_isSome hbn
    obtain ⟨hok1, ht1, -⟩ := hok.bmap ht hb
    obtain ⟨-, hsd1, hsz1⟩ := bmap_slotData hok ht hs0 hb
    refine ⟨le_rfl, htot, hoff, hok1, ht1, fun j hj o => ?_, hsz1, fun hr => absurd hr hnr⟩
    rw [if_neg (by omega), fileByte_congr (hsd1 j hj)]
  | case3 tot off d htot' addr d1 hb blk hc ih =>
    rw [Xv6Sched.writeLoop, dif_pos htot', hb] at h
    simp only [hc] at h
    have hbn : off / BSIZE < MAXFILE := by unfold BSIZE at *; omega
    obtain ⟨s0, hs0⟩ := blockSlot_isSome hbn
    obtain ⟨hok1, ht1, -⟩ := hok.bmap ht hb
    obtain ⟨hr1, hsd1, hsz1⟩ := bmap_slotData hok ht hs0 hb
    set m := min (n - tot) (BSIZE - off % BSIZE) with hm
    have hbm : off % BSIZE + m ≤ BSIZE := by
      have := Nat.mod_lt off (show 0 < BSIZE by decide)
      omega
    have ht1' : Allocated sb d1 inum := ht1.allocated.mpr ht
    have ht2 : Allocated sb (d1.setData addr blk) inum := (Allocated.congr setData_inode).mpr ht1'
    obtain ⟨h1, h2, h3, h4, h5, h6, h7, h8⟩ :=
      ih (hok1.setData hr1 (blockSlot_ne_indirect hs0) blk) ht2 (by omega) (by omega) h
    refine ⟨by omega, h2, h3, h4, h5.trans ht1, fun j hj o => ?_, fun j => ?_, h8⟩
    · have hj1 : Allocated sb d1 j := ht1.allocated.mpr hj
      rw [h6 j ((Allocated.congr setData_inode).mpr hj1) o, fileByte_setData hok1 hr1 hs0 hcp hc hbm hj1 o,
        fileByte_congr (hsd1 j hj)]
      have hchunk := chunk_iff (o := o) hbm
      by_cases hji : j = inum
      · subst hji
        -- a byte of a later chunk, of this chunk, or of none
        by_cases hl : off + m ≤ o ∧ o < off0 + tot'
        · rw [if_pos ⟨rfl, hl⟩, if_pos ⟨rfl, by omega, hl.2⟩]
        · rw [if_neg fun h' => hl h'.2]
          by_cases hc' : off ≤ o ∧ o < off + m
          · have hidx : tot + (o % BSIZE - off % BSIZE) = o - off0 := by
              rw [chunk_offset hbm hc']
              omega
            rw [if_pos ⟨rfl, hchunk.mpr hc'⟩, if_pos ⟨rfl, hc'.1, by omega⟩, hidx]
          · rw [if_neg fun h' => hc' (hchunk.mp h'.2), if_neg (by omega)]
      · simp [hji]
    · rw [h7 j, setData_inode, hsz1]
  | case4 tot off d htot' =>
    rw [Xv6Sched.writeLoop, dif_neg htot'] at h
    simp only [Option.some.injEq, Prod.mk.injEq] at h
    obtain ⟨rfl, rfl, rfl⟩ := h
    exact ⟨le_rfl, htot, hoff, hok, fun _ => rfl, fun j _ o => by rw [if_neg (by omega)],
      fun _ => rfl, fun _ => by omega⟩

/-- `writei` changes no byte past those it copies; it refuses (`-1`, nothing changed) a start past
the end, a range whose `uint` end wraps, or one past `MAXFILE` blocks, and otherwise copies
`k ≤ n` bytes, all `n` when every copy succeeds, and extends `size` to cover them. -/
theorem writei_bytes {off n : Nat} {r : Int} {src : Nat → UInt8} {copyin : CopyIn} (hcp : CopiesFrom src copyin)
    (hok : FsOk sb d) (ht : Allocated sb d inum) (hn : n < 2 ^ 32)
    (h : writei sb d inum off n copyin = some (r, d')) :
    ((off > (d.inode inum).size ∨ (off + n) % 2 ^ 32 < off ∨ (off + n) % 2 ^ 32 > MAXFILE * BSIZE) →
        r = -1 ∧ d' = d) ∧
      (¬ (off > (d.inode inum).size ∨ (off + n) % 2 ^ 32 < off ∨ (off + n) % 2 ^ 32 > MAXFILE * BSIZE) →
        ∃ k ≤ n, r = k ∧ FsOk sb d' ∧ SameTypes d' d ∧ (d'.inode inum).size = max (d.inode inum).size (off + k) ∧
          (∀ j, Allocated sb d j → ∀ o, fileByte d' j o =
            if j = inum ∧ off ≤ o ∧ o < off + k then src (o - off) else fileByte d j o) ∧
          (∀ j, j ≠ inum → (d'.inode j).size = (d.inode j).size) ∧
          ((∀ t b m blk, (copyin t b m blk).isSome) → k = n)) := by
  unfold Xv6Sched.writei at h
  refine ⟨fun hbad => ?_, fun hgood => ?_⟩
  · split_ifs at h with h1 h2 <;> simp only [Option.some.injEq, Prod.mk.injEq] at h
    · exact ⟨h.1.symm, h.2.symm⟩
    · exact ⟨h.1.symm, h.2.symm⟩
    · exact absurd hbad (by omega)
  rw [if_neg (by omega), if_neg (by omega)] at h
  obtain ⟨⟨tot, off', d1⟩, hl, he⟩ := Option.map_eq_some_iff.mp h
  -- the range neither wraps nor passes `MAXFILE` blocks
  have hend : off + n ≤ MAXFILE * BSIZE := by
    have : (off + n) % 2 ^ 32 = off + n := Nat.mod_eq_of_lt (by omega)
    omega
  obtain ⟨-, h2, h3, h4, h5, h6, h7, h8⟩ := writeLoop_bytes hcp hok ht (Nat.add_zero off).symm hend (Nat.zero_le n) hl
  simp only [Prod.mk.injEq] at he
  obtain ⟨rfl, rfl⟩ := he
  subst h3
  refine ⟨tot, h2, rfl, ?_, ?_, ?_, fun j hj o => ?_, fun j hj => ?_, h8⟩
  · split_ifs
    · exact h4.setInode_of rfl rfl
    · exact h4
  · split_ifs
    · exact fun i => by rw [setSize_type]; exact h5 i
    · exact h5
  · rw [← h7 inum]
    split_ifs with hs
    · simp [Fs.setSize]
      omega
    · omega
  · -- `iupdate` of the size keeps the addresses, so the bytes
    rw [← h6 j hj o]
    split_ifs
    · exact fileByte_congr (fun s _ => slotData_setSize) o
    · rfl
  · split_ifs
    · simp [Fs.setSize, hj, h7]
    · exact h7 j

/-- `writei`'s loop over a range below `MAXFILE` blocks panics only in `balloc`, with fewer free
blocks than two for each block the rest of the range meets. -/
theorem writeLoop_eq_none {n tot off off0 : Nat} {copyin : CopyIn} (hoff : off = off0 + tot)
    (hend : off0 + n ≤ MAXFILE * BSIZE) (h : writeLoop sb inum n copyin tot off d = none) :
    freeBlocks sb d < 2 * blocksTouched off (n - tot) := by
  induction tot, off, d using writeLoop.induct sb inum n copyin with
  | case1 tot off d htot hb =>
    obtain ⟨s0, hs0⟩ := @blockSlot_isSome (off / BSIZE) (by unfold BSIZE at *; omega)
    have := bmap_eq_none hs0 hb
    have := blocksTouched_pos off (Nat.sub_pos_of_lt htot)
    omega
  | case2 tot off d htot addr d1 hb hc =>
    rw [Xv6Sched.writeLoop, dif_pos htot, hb] at h
    simp [hc] at h
  | case3 tot off d htot addr d1 hb blk hc ih =>
    rw [Xv6Sched.writeLoop, dif_pos htot, hb] at h
    simp only [hc] at h
    -- `bmap` took at most two blocks, and the rest of the range meets one block less
    have hrest := ih (by omega) h
    have hset : freeBlocks sb (d1.setData addr blk) = freeBlocks sb d1 := freeBlocks_congr rfl
    rw [hset, ← Nat.sub_sub] at hrest
    have hb2 := freeBlocks_bmap hb
    have hstep := blocksTouched_step off (Nat.sub_pos_of_lt htot)
    omega
  | case4 tot off d htot =>
    rw [Xv6Sched.writeLoop, dif_neg htot] at h
    cases h

end Write

/-! ### `readi` -/

section Read

variable {sb : Superblock} {d d' : Fs} {inum : Nat}

/-- The byte at offset `o` of a file is that byte of the block the slot of `o`'s block holds. -/
theorem fileByte_of_refs {addr bn o : Nat} {s0 : Slot} (hr : Refs sb d inum s0 addr)
    (hs0 : blockSlot bn = some s0) (ho : o / BSIZE = bn) :
    fileByte d inum o = blockByte (d.data addr) (o % BSIZE) := by
  unfold fileByte
  rw [ho, hs0]
  simp only [slotData, hr.2.2, if_neg hr.2.1]

/-- **The loop of `readi`**, from `tot` bytes at `off = off0 + tot`, copying out to a destination
that takes exactly the bytes `e`: it returns the count when the content from `off` is `e`, and
`-1` when it is not; `bmap` changes no file's bytes. -/
theorem readLoop_expect {n tot off off0 : Nat} {r : Int} {e : Nat → UInt8} (hok : FsOk sb d)
    (ht : Allocated sb d inum) (hoff : off = off0 + tot) (hend : off0 + n ≤ MAXFILE * BSIZE) (htot : tot ≤ n)
    (h : readLoop sb inum n (copyoutExpect e) tot off d = some (r, d')) :
    r = (if ∀ k, tot ≤ k → k < n → fileByte d inum (off0 + k) = e k then (n : Int) else -1) ∧
      FsOk sb d' ∧ SameTypes d' d ∧ (∀ j, Allocated sb d j → ∀ o, fileByte d' j o = fileByte d j o) ∧
      ∀ j, (d'.inode j).size = (d.inode j).size := by
  induction tot, off, d using readLoop.induct sb inum n (copyoutExpect e) with
  | case1 tot off d htot' hb =>
    rw [Xv6Sched.readLoop, dif_pos htot', hb] at h
    cases h
  | case2 tot off d htot' addr d1 hb hc ih =>
    rw [Xv6Sched.readLoop, dif_pos htot', hb] at h
    simp only [hc, if_true] at h
    have hbn : off / BSIZE < MAXFILE := by unfold BSIZE at *; omega
    obtain ⟨s0, hs0⟩ := blockSlot_isSome hbn
    obtain ⟨hok1, ht1, -⟩ := hok.bmap ht hb
    obtain ⟨hr1, hsd1, hsz1⟩ := bmap_slotData hok ht hs0 hb
    set m := min (n - tot) (BSIZE - off % BSIZE) with hm
    have hbm : off % BSIZE + m ≤ BSIZE := by
      have := Nat.mod_lt off (show 0 < BSIZE by decide)
      omega
    obtain ⟨h1, h2, h3, h4, h5⟩ := ih hok1 (ht1.allocated.mpr ht) (by omega) (by omega) h
    refine ⟨?_, h2, h3.trans ht1, fun j hj o => (h4 j (ht1.allocated.mpr hj) o).trans
      (fileByte_congr (hsd1 j hj) o), fun j => (h5 j).trans (hsz1 j)⟩
    have hd1 : ∀ o, fileByte d1 inum o = fileByte d inum o := fileByte_congr (hsd1 inum ht)
    -- this chunk was copied out, so its bytes are `e`'s
    have hchunk : ∀ k, tot ≤ k → k < tot + m → fileByte d inum (off0 + k) = e k := by
      intro k hk1 hk2
      have hcopy := of_decide_eq_true hc (k - tot) (by omega)
      rw [← hd1, fileByte_of_refs hr1 hs0 (o := off0 + k) (by unfold BSIZE at *; omega),
        show off0 + k = off + (k - tot) by omega,
        show (off + (k - tot)) % BSIZE = off % BSIZE + (k - tot) by unfold BSIZE at *; omega, hcopy]
      congr 1
      omega
    simp only [hd1] at h1
    rw [h1]
    congr 1
    apply propext
    constructor
    · intro hall k hk1 hk2
      by_cases hk : k < tot + m
      · exact hchunk k hk1 hk
      · exact hall k (by omega) hk2
    · intro hall k hk1 hk2
      exact hall k (by omega) hk2
  | case3 tot off d htot' addr d1 hb hc =>
    rw [Xv6Sched.readLoop, dif_pos htot', hb] at h
    simp only [hc, Bool.false_eq_true, if_false, Option.some.injEq, Prod.mk.injEq] at h
    obtain ⟨rfl, rfl⟩ := h
    have hbn : off / BSIZE < MAXFILE := by unfold BSIZE at *; omega
    obtain ⟨s0, hs0⟩ := blockSlot_isSome hbn
    obtain ⟨hok1, ht1, -⟩ := hok.bmap ht hb
    obtain ⟨hr1, hsd1, hsz1⟩ := bmap_slotData hok ht hs0 hb
    refine ⟨?_, hok1, ht1, fun j hj o => fileByte_congr (hsd1 j hj) o, hsz1⟩
    -- the copy of this chunk failed: one of its bytes is not `e`'s
    rw [if_neg]
    intro hall
    apply hc
    apply decide_eq_true
    intro k hk
    have hlt := Nat.mod_lt off (show 0 < BSIZE by decide)
    have hin : (off + k) % BSIZE = off % BSIZE + k := by unfold BSIZE at *; omega
    rw [← hin, ← fileByte_of_refs hr1 hs0 (by unfold BSIZE at *; omega), fileByte_congr (hsd1 inum ht),
      show off + k = off0 + (tot + k) by omega]
    exact hall (tot + k) (by omega) (by omega)
  | case4 tot off d htot' =>
    rw [Xv6Sched.readLoop, dif_neg htot'] at h
    simp only [Option.some.injEq, Prod.mk.injEq] at h
    obtain ⟨rfl, rfl⟩ := h
    refine ⟨?_, hok, fun _ => rfl, fun _ _ _ => rfl, fun _ => rfl⟩
    rw [if_pos fun k hk1 hk2 => absurd hk2 (by omega)]
    congr 1
    omega

/-- **`readi` hands out the content**: copying out to a destination that takes exactly the bytes
`e`, it returns `0` for a start past the end or a range whose `uint` end wraps, else the
`min n (size - off)` bytes from `off` when they are `e`'s and `-1` when they are not; no byte of
any file changes. -/
theorem readi_expect {off n : Nat} {r : Int} {e : Nat → UInt8} (hok : FsOk sb d) (ht : Allocated sb d inum)
    (hsz : (d.inode inum).size ≤ MAXFILE * BSIZE) (hn : n < 2 ^ 32)
    (h : readi sb d inum off n (copyoutExpect e) = some (r, d')) :
    r = (if off > (d.inode inum).size ∨ (off + n) % 2 ^ 32 < off then 0
      else if ∀ k < min n ((d.inode inum).size - off), fileByte d inum (off + k) = e k
        then ((min n ((d.inode inum).size - off) : Nat) : Int) else -1) ∧
      FsOk sb d' ∧ SameTypes d' d ∧ (∀ j, Allocated sb d j → ∀ o, fileByte d' j o = fileByte d j o) ∧
      ∀ j, (d'.inode j).size = (d.inode j).size := by
  unfold Xv6Sched.readi at h
  by_cases h1 : off > (d.inode inum).size ∨ (off + n) % 2 ^ 32 < off
  · rw [if_pos h1] at h
    simp only [Option.some.injEq, Prod.mk.injEq] at h
    obtain ⟨rfl, rfl⟩ := h
    exact ⟨by rw [if_pos h1], hok, fun _ => rfl, fun _ _ _ => rfl, fun _ => rfl⟩
  rw [if_neg h1] at h
  dsimp only at h
  -- the range does not wrap, so its end is `off + n`, and the count is cut at `size`
  have hwrap : (off + n) % 2 ^ 32 = off + n := Nat.mod_eq_of_lt (by omega)
  have hcount : (if (off + n) % 2 ^ 32 > (d.inode inum).size then (d.inode inum).size - off else n) =
      min n ((d.inode inum).size - off) := by
    split_ifs <;> omega
  rw [hcount] at h
  obtain ⟨h1', h2, h3, h4, h5⟩ := readLoop_expect hok ht (Nat.add_zero off).symm (by omega) (Nat.zero_le _) h
  refine ⟨?_, h2, h3, h4, h5⟩
  rw [h1', if_neg h1]
  congr 1
  apply propext
  exact ⟨fun hall k hk => hall k (Nat.zero_le k) hk, fun hall k _ hk => hall k hk⟩

/-- `readi`'s loop over a range below `MAXFILE` blocks panics only in `balloc`, with fewer free
blocks than two for each block the rest of the range meets. -/
theorem readLoop_eq_none {n tot off off0 : Nat} {copyout : CopyOut} (hoff : off = off0 + tot)
    (hend : off0 + n ≤ MAXFILE * BSIZE) (h : readLoop sb inum n copyout tot off d = none) :
    freeBlocks sb d < 2 * blocksTouched off (n - tot) := by
  induction tot, off, d using readLoop.induct sb inum n copyout with
  | case1 tot off d htot hb =>
    obtain ⟨s0, hs0⟩ := @blockSlot_isSome (off / BSIZE) (by unfold BSIZE at *; omega)
    have := bmap_eq_none hs0 hb
    have := blocksTouched_pos off (Nat.sub_pos_of_lt htot)
    omega
  | case2 tot off d htot addr d1 hb hc ih =>
    rw [Xv6Sched.readLoop, dif_pos htot, hb] at h
    simp only [hc, if_true] at h
    have hrest := ih (by omega) h
    rw [← Nat.sub_sub] at hrest
    have hb2 := freeBlocks_bmap hb
    have hstep := blocksTouched_step off (Nat.sub_pos_of_lt htot)
    omega
  | case3 tot off d htot addr d1 hb hc =>
    rw [Xv6Sched.readLoop, dif_pos htot, hb] at h
    simp [hc] at h
  | case4 tot off d htot =>
    rw [Xv6Sched.readLoop, dif_neg htot] at h
    cases h

end Read

/-! ### `writei` and `readi` together -/

section Both

variable {sb : Superblock} {d : Fs} {inum : Nat}

theorem writei_eq_none {off n : Nat} {copyin : CopyIn} (hn : n < 2 ^ 32)
    (h : writei sb d inum off n copyin = none) : freeBlocks sb d < 2 * blocksTouched off n := by
  unfold Xv6Sched.writei at h
  split_ifs at h with h1 h2
  have hend : off + n ≤ MAXFILE * BSIZE := by
    have : (off + n) % 2 ^ 32 = off + n := Nat.mod_eq_of_lt (by omega)
    omega
  simpa using writeLoop_eq_none (Nat.add_zero off).symm hend (Option.map_eq_none_iff.mp h)

theorem readi_eq_none {off n : Nat} {copyout : CopyOut} (hsz : (d.inode inum).size ≤ MAXFILE * BSIZE)
    (hn : n < 2 ^ 32) (h : readi sb d inum off n copyout = none) : freeBlocks sb d < 2 * blocksTouched off n := by
  unfold Xv6Sched.readi at h
  by_cases h1 : off > (d.inode inum).size ∨ (off + n) % 2 ^ 32 < off
  · rw [if_pos h1] at h
    cases h
  rw [if_neg h1] at h
  dsimp only at h
  -- the count is cut to the end of the file, within `MAXFILE` blocks
  have hle : (if (off + n) % 2 ^ 32 > (d.inode inum).size then (d.inode inum).size - off else n) ≤ n := by
    split_ifs <;> omega
  have hlt := readLoop_eq_none (Nat.add_zero off).symm (by split_ifs <;> omega) h
  rw [Nat.sub_zero] at hlt
  exact lt_of_lt_of_le hlt (Nat.mul_le_mul_left 2 (blocksTouched_mono hle))

/-- A disk of `8` blocks with the boot block and the superblock marked in use, and inode `1` an
empty file (type `T_FILE = 2`). -/
def sbTiny : Superblock := ⟨8, 6, 2, 1, 1⟩

def tinyDisk : Fs :=
  ⟨fun i => if i = 1 then ⟨2, 1, 0, fun _ => 0⟩ else Dinode.zero, fun _ _ => 0,
    fun b i => if b = 1 ∧ i = 0 then 3 else 0⟩

theorem tinyDisk_fsOk : FsOk sbTiny tinyDisk := by
  -- inode `1` is the only allocated inode, and it holds no block
  have hno : ∀ {i s b}, ¬ Refs sbTiny tinyDisk i s b := by
    rintro i s b ⟨⟨-, ht⟩, hb, hv⟩
    by_cases h1 : i = 1
    · subst h1
      cases s <;> simp [slotVal, tinyDisk] at hv <;> exact hb hv.symm
    · simp [tinyDisk, h1, Dinode.zero] at ht
  refine ⟨by decide, fun b hb => ?_, fun h => absurd h hno, fun h => absurd h hno, fun h => absurd h hno⟩
  have hb' : b < 2 := hb
  interval_cases b <;> decide

/-- The tiny disk with inode `1` of size `5`, and the same with every block marked in use. -/
def tinyFile (used : Bool) : Fs :=
  ⟨fun i => if i = 1 then ⟨2, 1, 5, fun _ => 0⟩ else Dinode.zero, fun _ _ => 0,
    fun b i => if b = 1 ∧ i = 0 then (if used then 255 else 3) else 0⟩

end Both

end Xv6Sched
