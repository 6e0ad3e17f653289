import Xv6Sched.Lib.Scan
import Xv6Sched.Lib.Lts
import Xv6Sched.Fs.Disk
import Mathlib.Data.List.Perm.Basic
import Mathlib.Data.Fintype.Basic

/-!
# Xv6Sched.Fs.Virtio — the descriptor table of `kernel/virtio_disk.c`

The driver owns `NUM` descriptors, each free or in use (`disk.free`).  A disk request
(`virtio_disk_rw`) takes three with `alloc3_desc`, links them into a chain
`idx[0] → idx[1] → idx[2]` through their `next` fields and the `VRING_DESC_F_NEXT` flag, publishes
the head in the avail ring and sleeps; once the device has finished, the request frees the chain
with `free_chain`, which follows the links the request wrote.  `free_desc` panics on an index out
of range or on a descriptor already free; `none` is that panic.

* `alloc3Desc_spec`: the allocation takes three distinct free descriptors or, rolling back what
  it took, leaves the disk as it was, provided free descriptors have zero fields (what
  `virtio_disk_init`'s `memset` and every `free_desc` leave).
* `freeChain_formatted`: `free_chain` from the head of a chain in the format `virtio_disk_rw`
  writes frees exactly its three descriptors.
* `VOk`: the invariant of the driver over requests (`VOp.rw`) and completions (`VOp.done`) in
  any order; `VReachable.vOk` carries it over every run.

The device is the environment: it may finish the in-flight requests in any order, which is when
`virtio_disk_intr` wakes the request's process.  The interrupt's own reads (the used ring, the
status byte) are left out; so is `b->disk`, whose clearing is the completion itself.
-/

namespace Xv6Sched.Virtio

/-- `NUM`: descriptors in the queue. -/
abbrev NUM : Nat := 8

def VRING_DESC_F_NEXT : UInt16 := 1
def VRING_DESC_F_WRITE : UInt16 := 2
def VIRTIO_BLK_T_IN : UInt32 := 0
def VIRTIO_BLK_T_OUT : UInt32 := 1

/-- `struct virtq_desc`. -/
structure VirtqDesc where
  addr : UInt64
  len : UInt32
  flags : UInt16
  next : UInt16
deriving DecidableEq, Repr

/-- A descriptor with every field zero. -/
def VirtqDesc.zero : VirtqDesc := ⟨0, 0, 0, 0⟩

/-- `struct virtio_blk_req`. -/
structure VirtioBlkReq where
  type : UInt32
  reserved : UInt32
  sector : UInt64
deriving DecidableEq, Repr

/-- An entry of `disk.info`: the `struct buf *` of the request whose chain starts here (`0` for
none) and the status byte the device writes. -/
structure Info where
  b : Nat
  status : UInt8
deriving DecidableEq, Repr

/-- The fields of `static struct disk` that the descriptor code reads and writes. -/
structure Disk where
  desc : Fin NUM → VirtqDesc
  availIdx : UInt16
  ring : Fin NUM → UInt16
  free : Fin NUM → Bool
  info : Fin NUM → Info
  ops : Fin NUM → VirtioBlkReq

/-- The addresses `virtio_disk_rw` stores in descriptors: of `disk.ops[i]` and of
`disk.info[i].status`. -/
structure Layout where
  ops : Fin NUM → UInt64
  status : Fin NUM → UInt64

/-- `disk` after `virtio_disk_init`: `disk.pages` (descriptors and avail ring) zeroed and every
descriptor free; `info` and `ops` are zero as parts of a static. -/
def Disk.init : Disk where
  desc _ := VirtqDesc.zero
  availIdx := 0
  ring _ := 0
  free _ := true
  info _ := ⟨0, 0⟩
  ops _ := ⟨0, 0, 0⟩

/-! ### `alloc_desc`, `free_desc`, `free_chain`, `alloc3_desc` -/

/-- `alloc_desc()`: the first free descriptor, marked in use; `none` is the `-1` it returns when
every descriptor is in use. -/
def allocDesc (d : Disk) : Option (Fin NUM) × Disk :=
  match Scan.firstFin d.free with
  | some i => (some i, { d with free := Function.update d.free i false })
  | none => (none, d)

/-- The writes of `free_desc` once its checks pass: the four fields zeroed, the descriptor marked
free. -/
def Disk.release (d : Disk) (j : Fin NUM) : Disk :=
  { d with desc := Function.update d.desc j VirtqDesc.zero, free := Function.update d.free j true }

/-- `free_desc(i)`.  Every caller passes an index that is not negative (one `alloc_desc` returned,
or a `uint16` `next` field), so the `int` is a `Nat` here. -/
def freeDesc (d : Disk) (i : Nat) : Option Disk :=
  if h : i ≥ NUM then none
  else if d.free ⟨i, by omega⟩ then none
  else some (d.release ⟨i, by omega⟩)

/-- The descriptors in use. -/
def Disk.busy (d : Disk) : Finset (Fin NUM) := Finset.univ.filter fun i => d.free i = false

@[simp] theorem release_free (d : Disk) (j : Fin NUM) :
    (d.release j).free = Function.update d.free j true := rfl

@[simp] theorem release_desc (d : Disk) (j : Fin NUM) :
    (d.release j).desc = Function.update d.desc j VirtqDesc.zero := rfl

@[simp] theorem release_info (d : Disk) (j : Fin NUM) : (d.release j).info = d.info := rfl

theorem freeDesc_eq_some {d d' : Disk} {i : Nat} (h : freeDesc d i = some d') :
    ∃ j : Fin NUM, j.val = i ∧ d.free j = false ∧ d' = d.release j := by
  unfold freeDesc at h
  split_ifs at h with hi hf
  cases h
  exact ⟨⟨i, by omega⟩, rfl, by simpa using hf, rfl⟩

theorem freeDesc_of_busy {d : Disk} {j : Fin NUM} (hb : d.free j = false) :
    freeDesc d j = some (d.release j) := by
  have hj : ¬ (j : Nat) ≥ NUM := by have := j.isLt; omega
  simp [freeDesc, hj, hb]

theorem busy_release (d : Disk) (j : Fin NUM) : (d.release j).busy = d.busy.erase j := by
  ext i
  unfold Disk.busy
  rw [Finset.mem_filter, Finset.mem_erase, Finset.mem_filter]
  by_cases hij : i = j
  · subst hij
    simp
  · simp [hij]

/-- `free_desc` marks one descriptor in use as free: the measure of `free_chain`. -/
theorem freeDesc_busy_lt {d d' : Disk} {i : Nat} (h : freeDesc d i = some d') :
    d'.busy.card < d.busy.card := by
  obtain ⟨j, -, hb, rfl⟩ := freeDesc_eq_some h
  rw [busy_release]
  exact Finset.card_erase_lt_of_mem (by simp [Disk.busy, hb])

/-- `free_chain(i)`: free `i` and, while the freed descriptor had `VRING_DESC_F_NEXT`, its `next`.
It reads `disk.desc[i]` before `free_desc` checks `i`, so an index out of range is the panic. -/
def freeChain (d : Disk) (i : Nat) : Option Disk :=
  if h : i < NUM then
    let flag := (d.desc ⟨i, h⟩).flags
    let nxt := (d.desc ⟨i, h⟩).next
    match hd : freeDesc d i with
    | none => none
    | some d' => if flag &&& VRING_DESC_F_NEXT ≠ 0 then freeChain d' nxt.toNat else some d'
  else none
termination_by d.busy.card
decreasing_by exact freeDesc_busy_lt hd

theorem freeChain_of_next {d : Disk} {j : Fin NUM} (hb : d.free j = false)
    (hn : (d.desc j).flags &&& VRING_DESC_F_NEXT ≠ 0) :
    freeChain d j = freeChain (d.release j) (d.desc j).next.toNat := by
  rw [freeChain.eq_def, dif_pos j.isLt]
  split
  · next hd => rw [freeDesc_of_busy hb] at hd; cases hd
  · next d' hd =>
    rw [freeDesc_of_busy hb] at hd
    cases hd
    exact if_pos hn

theorem freeChain_of_last {d : Disk} {j : Fin NUM} (hb : d.free j = false)
    (hn : (d.desc j).flags &&& VRING_DESC_F_NEXT = 0) :
    freeChain d j = some (d.release j) := by
  rw [freeChain.eq_def, dif_pos j.isLt]
  split
  · next hd => rw [freeDesc_of_busy hb] at hd; cases hd
  · next d' hd =>
    rw [freeDesc_of_busy hb] at hd
    cases hd
    exact if_neg (not_not.mpr hn)

/-- The loop of `alloc3_desc` with `k` passes left and `idx` the descriptors taken so far; on
failure it frees those (`free_desc(idx[j])` for `j < i`) and returns `-1`. -/
def alloc3Loop : Nat → List (Fin NUM) → Disk → Option (Int × List (Fin NUM) × Disk)
  | 0, idx, d => some (0, idx, d)
  | k + 1, idx, d =>
    match allocDesc d with
    | (some i, d') => alloc3Loop k (idx ++ [i]) d'
    | (none, d') => (idx.foldlM (fun d (j : Fin NUM) => freeDesc d j.val) d').map fun d'' => (-1, idx, d'')

/-- `alloc3_desc(idx)`: its return value, the descriptors it wrote to `idx`, and the disk. -/
def alloc3Desc (d : Disk) : Option (Int × List (Fin NUM) × Disk) := alloc3Loop 3 [] d

/-! ### What `alloc3_desc` does -/

/-- `d` with the descriptors of `l` marked in use, as `alloc_desc` leaves it after returning each. -/
def Disk.markUsed (d : Disk) (l : List (Fin NUM)) : Disk :=
  { d with free := fun i => if i ∈ l then false else d.free i }

@[simp] theorem markUsed_nil (d : Disk) : d.markUsed [] = d := by
  simp [Disk.markUsed]

theorem allocDesc_markUsed {d : Disk} {l : List (Fin NUM)} {i : Fin NUM}
    (h : Scan.firstFin (d.markUsed l).free = some i) :
    allocDesc (d.markUsed l) = (some i, d.markUsed (l ++ [i])) := by
  rw [allocDesc, h]
  simp only [Disk.markUsed, Prod.mk.injEq, true_and]
  congr 1
  funext j
  by_cases hj : j = i
  · subst hj
    simp
  · simp [Function.update_of_ne hj, hj]

/-- Freeing the first descriptor taken gives the disk with only the others taken: `free_desc`
zeroes fields that were zero, since the descriptor was free before. -/
theorem release_markUsed_cons {d : Disk} {a : Fin NUM} {l : List (Fin NUM)}
    (hz : ∀ i, d.free i = true → d.desc i = VirtqDesc.zero) (ha : d.free a = true) (hal : a ∉ l) :
    (d.markUsed (a :: l)).release a = d.markUsed l := by
  have hdesc : Function.update d.desc a VirtqDesc.zero = d.desc :=
    Function.update_eq_self_iff.mpr (hz a ha).symm
  simp only [Disk.release, Disk.markUsed, hdesc]
  congr 1
  funext j
  by_cases hj : j = a
  · subst hj
    simp [ha, hal]
  · simp [Function.update_of_ne hj, hj]

/-- The rollback of `alloc3_desc` frees what the loop took, in order, and gives back the disk it
started from. -/
theorem rollback {d : Disk} (hz : ∀ i, d.free i = true → d.desc i = VirtqDesc.zero) :
    ∀ {l : List (Fin NUM)}, l.Nodup → (∀ i ∈ l, d.free i = true) →
      l.foldlM (fun d (j : Fin NUM) => freeDesc d j.val) (d.markUsed l) = some d
  | [], _, _ => by simp
  | a :: l, hnd, hfree => by
    have ha : (d.markUsed (a :: l)).free a = false := by simp [Disk.markUsed]
    have hal := (List.nodup_cons.mp hnd).1
    rw [List.foldlM_cons, freeDesc_of_busy ha,
      release_markUsed_cons hz (hfree a List.mem_cons_self) hal]
    exact rollback hz (List.nodup_cons.mp hnd).2 fun i hi => hfree i (List.mem_cons_of_mem a hi)

/-- The loop of `alloc3_desc` from `idx = l`, with `k` passes left: it takes `k` more distinct free
descriptors, or returns `-1` with the disk it started from. -/
theorem alloc3Loop_spec {d : Disk} (hz : ∀ i, d.free i = true → d.desc i = VirtqDesc.zero) :
    ∀ (k : Nat) {l : List (Fin NUM)}, l.Nodup → (∀ i ∈ l, d.free i = true) →
      (∃ l', l'.length = k ∧ (l ++ l').Nodup ∧ (∀ i ∈ l', d.free i = true) ∧
        alloc3Loop k l (d.markUsed l) = some (0, l ++ l', d.markUsed (l ++ l'))) ∨
      ∃ idx, alloc3Loop k l (d.markUsed l) = some (-1, idx, d)
  | 0, l, hnd, _ => Or.inl ⟨[], rfl, by simpa using hnd, by simp, by simp [alloc3Loop]⟩
  | k + 1, l, hnd, hfree => by
    cases h : Scan.firstFin (d.markUsed l).free with
    | none =>
      -- every descriptor is in use: `alloc_desc` returns `-1` and the rollback gives back `d`
      refine Or.inr ⟨l, ?_⟩
      rw [alloc3Loop, allocDesc, h]
      simp only
      rw [rollback hz hnd hfree]
      rfl
    | some i =>
      have hi : i ∉ l ∧ d.free i = true := by
        simpa [Disk.markUsed] using Scan.firstFin_spec h
      have hnd' : (l ++ [i]).Nodup := List.nodup_append.mpr
        ⟨hnd, List.nodup_singleton i, fun a ha b hb => by
          rw [List.mem_singleton] at hb
          exact fun hab => hi.1 (by rw [← hb, ← hab]; exact ha)⟩
      have hfree' : ∀ j ∈ l ++ [i], d.free j = true := by
        intro j hj
        rcases List.mem_append.mp hj with hj | hj
        · exact hfree j hj
        · rw [List.mem_singleton.mp hj]
          exact hi.2
      rw [alloc3Loop, allocDesc_markUsed h]
      rcases alloc3Loop_spec hz k hnd' hfree' with ⟨l', hlen, hnd'', hfree'', heq⟩ | hfail
      · refine Or.inl ⟨i :: l', by simp [hlen], by simpa using hnd'', ?_, by simpa using heq⟩
        intro j hj
        rcases List.mem_cons.mp hj with rfl | hj
        · exact hi.2
        · exact hfree'' j hj
      · exact Or.inr hfail

/-- `alloc3_desc` from a disk whose free descriptors are zero: it returns `0` having taken three
distinct free descriptors, or `-1` with the disk unchanged. -/
theorem alloc3Desc_spec {d : Disk} (hz : ∀ i, d.free i = true → d.desc i = VirtqDesc.zero) :
    (∃ i0 i1 i2, [i0, i1, i2].Nodup ∧ (∀ i ∈ [i0, i1, i2], d.free i = true) ∧
      alloc3Desc d = some (0, [i0, i1, i2], d.markUsed [i0, i1, i2])) ∨
    ∃ idx, alloc3Desc d = some (-1, idx, d) := by
  have h := alloc3Loop_spec hz 3 List.nodup_nil (fun i hi => absurd hi List.not_mem_nil)
  rw [markUsed_nil] at h
  rcases h with ⟨l', hlen, hnd, hfree, heq⟩ | h
  · obtain ⟨i0, i1, i2, rfl⟩ := List.length_eq_three.mp hlen
    exact Or.inl ⟨i0, i1, i2, by simpa using hnd, hfree, by simpa [alloc3Desc] using heq⟩
  · exact Or.inr h

example : (alloc3Desc Disk.init).map (fun x => (x.1, x.2.1)) = some (0, [0, 1, 2]) := by decide

/-! ### The chain `virtio_disk_rw` builds, and `free_chain` on it -/

/-- The writes of `virtio_disk_rw` between `alloc3_desc` returning `idx = [i0, i1, i2]` and the
notify: the request header in `disk.ops[i0]`, the three descriptors linked by `next` and
`VRING_DESC_F_NEXT`, the buffer and status byte in `disk.info[i0]`, and the head in the avail
ring.  Each descriptor's four fields are written one after the other, so each is one update. -/
def format (L : Layout) (d : Disk) (i0 i1 i2 : Fin NUM) (b : Nat) (data : UInt64)
    (blockno : UInt32) (write : Bool) : Disk :=
  -- `b->blockno * (BSIZE / 512)` is `uint` arithmetic, then widened to `uint64`
  let sector : UInt64 := (blockno * (BSIZE / 512).toUInt32).toUInt64
  let desc0 := Function.update d.desc i0 ⟨L.ops i0, 16, VRING_DESC_F_NEXT, UInt16.ofNat i1.val⟩
  let desc1 := Function.update desc0 i1 ⟨data, BSIZE.toUInt32,
    (if write then 0 else VRING_DESC_F_WRITE) ||| VRING_DESC_F_NEXT, UInt16.ofNat i2.val⟩
  let desc2 := Function.update desc1 i2 ⟨L.status i0, 1, VRING_DESC_F_WRITE, 0⟩
  { d with
    ops := Function.update d.ops i0
      ⟨if write then VIRTIO_BLK_T_OUT else VIRTIO_BLK_T_IN, 0, sector⟩
    desc := desc2
    info := Function.update d.info i0 ⟨b, 0xff⟩
    ring := Function.update d.ring ⟨d.availIdx.toNat % NUM, Nat.mod_lt _ (by decide)⟩
      (UInt16.ofNat i0.val)
    availIdx := d.availIdx + 1 }

/-- A request of `virtio_disk_rw` in flight: its buffer, the address of its data, its direction,
and the three descriptors `alloc3_desc` gave it. -/
structure Req where
  b : Nat
  data : UInt64
  write : Bool
  i0 : Fin NUM
  i1 : Fin NUM
  i2 : Fin NUM

def Req.descs (r : Req) : List (Fin NUM) := [r.i0, r.i1, r.i2]

/-- The descriptors of `r` hold the chain its request wrote. -/
def Chained (L : Layout) (d : Disk) (r : Req) : Prop :=
  d.desc r.i0 = ⟨L.ops r.i0, 16, VRING_DESC_F_NEXT, UInt16.ofNat r.i1.val⟩ ∧
  d.desc r.i1 = ⟨r.data, BSIZE.toUInt32,
    (if r.write then 0 else VRING_DESC_F_WRITE) ||| VRING_DESC_F_NEXT, UInt16.ofNat r.i2.val⟩ ∧
  d.desc r.i2 = ⟨L.status r.i0, 1, VRING_DESC_F_WRITE, 0⟩

@[simp] theorem format_free (L : Layout) (d : Disk) (i0 i1 i2 : Fin NUM) (b : Nat) (data : UInt64)
    (blockno : UInt32) (write : Bool) :
    (format L d i0 i1 i2 b data blockno write).free = d.free := rfl

theorem format_desc_of_not_mem (L : Layout) (d : Disk) {i0 i1 i2 i : Fin NUM} (b : Nat)
    (data : UInt64) (blockno : UInt32) (write : Bool) (h : i ∉ [i0, i1, i2]) :
    (format L d i0 i1 i2 b data blockno write).desc i = d.desc i := by
  simp only [List.mem_cons, List.not_mem_nil, or_false, not_or] at h
  simp [format, Function.update_of_ne h.1, Function.update_of_ne h.2.1, Function.update_of_ne h.2.2]

theorem format_info_of_ne (L : Layout) (d : Disk) {i0 i1 i2 i : Fin NUM} (b : Nat) (data : UInt64)
    (blockno : UInt32) (write : Bool) (h : i ≠ i0) :
    (format L d i0 i1 i2 b data blockno write).info i = d.info i := by
  simp [format, Function.update_of_ne h]

theorem format_info_self (L : Layout) (d : Disk) (i0 i1 i2 : Fin NUM) (b : Nat) (data : UInt64)
    (blockno : UInt32) (write : Bool) :
    ((format L d i0 i1 i2 b data blockno write).info i0).b = b := by
  simp [format]

/-- On three distinct descriptors, `virtio_disk_rw` writes the chain its request names. -/
theorem chained_format (L : Layout) (d : Disk) {i0 i1 i2 : Fin NUM} (b : Nat) (data : UInt64)
    (blockno : UInt32) (write : Bool) (hnd : [i0, i1, i2].Nodup) :
    Chained L (format L d i0 i1 i2 b data blockno write) ⟨b, data, write, i0, i1, i2⟩ := by
  simp only [List.nodup_cons, List.mem_cons, List.not_mem_nil, or_false, not_or] at hnd
  obtain ⟨⟨h01, h02⟩, h12, -⟩ := hnd
  refine ⟨?_, ?_, ?_⟩
  · simp [format, Function.update_of_ne h01, Function.update_of_ne h02]
  · simp [format, Function.update_of_ne h12]
  · simp [format]

theorem Chained.frame {L : Layout} {d d' : Disk} {r : Req} (h : Chained L d r)
    (hdesc : ∀ i ∈ r.descs, d'.desc i = d.desc i) : Chained L d' r := by
  obtain ⟨h0, h1, h2⟩ := h
  refine ⟨?_, ?_, ?_⟩
  · rw [hdesc r.i0 (by simp [Req.descs]), h0]
  · rw [hdesc r.i1 (by simp [Req.descs]), h1]
  · rw [hdesc r.i2 (by simp [Req.descs]), h2]

/-- `d` with the descriptors of `l` released by `free_desc` one after the other. -/
def Disk.releaseAll (d : Disk) (l : List (Fin NUM)) : Disk := l.foldl Disk.release d

theorem releaseAll_free (d : Disk) (l : List (Fin NUM)) (i : Fin NUM) :
    (d.releaseAll l).free i = if i ∈ l then true else d.free i := by
  induction l generalizing d with
  | nil => simp [Disk.releaseAll]
  | cons a l ih =>
    rw [Disk.releaseAll, List.foldl_cons, ← Disk.releaseAll, ih]
    by_cases hi : i = a
    · subst hi
      simp
    · simp [Function.update_of_ne hi, hi]

theorem releaseAll_desc (d : Disk) (l : List (Fin NUM)) (i : Fin NUM) :
    (d.releaseAll l).desc i = if i ∈ l then VirtqDesc.zero else d.desc i := by
  induction l generalizing d with
  | nil => simp [Disk.releaseAll]
  | cons a l ih =>
    rw [Disk.releaseAll, List.foldl_cons, ← Disk.releaseAll, ih]
    by_cases hi : i = a
    · subst hi
      simp
    · simp [Function.update_of_ne hi, hi]

@[simp] theorem releaseAll_info (d : Disk) (l : List (Fin NUM)) :
    (d.releaseAll l).info = d.info := by
  induction l generalizing d with
  | nil => rfl
  | cons a l ih => exact ih (d.release a)

theorem toNat_ofNat_fin (i : Fin NUM) : (UInt16.ofNat i.val).toNat = i.val := by
  have hi : i.val < 8 := i.isLt
  simp
  omega

/-- `free_chain` from the head of a chain in the format `virtio_disk_rw` writes follows the two
links and stops at the third descriptor, whose flags lack `VRING_DESC_F_NEXT`: it frees exactly
the chain. -/
theorem freeChain_chained {L : Layout} {d : Disk} {r : Req} (hc : Chained L d r)
    (hnd : r.descs.Nodup) (hb : ∀ i ∈ r.descs, d.free i = false) :
    freeChain d r.i0 = some (d.releaseAll r.descs) := by
  obtain ⟨h0, h1, h2⟩ := hc
  simp only [Req.descs, List.nodup_cons, List.mem_cons, List.not_mem_nil, or_false, not_or] at hnd
  obtain ⟨⟨h01, h02⟩, h12, -⟩ := hnd
  simp only [Req.descs, List.mem_cons, List.not_mem_nil, or_false, forall_eq_or_imp,
    forall_eq] at hb
  obtain ⟨hb0, hb1, hb2⟩ := hb
  -- the head links to `i1`
  rw [freeChain_of_next hb0 (by rw [h0]; dsimp only; decide), h0, toNat_ofNat_fin]
  have h1' : (d.release r.i0).desc r.i1 = d.desc r.i1 := by
    simp [Function.update_of_ne (Ne.symm h01)]
  -- the data descriptor links to `i2`, whatever the direction
  rw [freeChain_of_next (by simp [Function.update_of_ne (Ne.symm h01), hb1])
    (by rw [h1', h1]; dsimp only; cases r.write <;> decide), h1', h1, toNat_ofNat_fin]
  have h2' : ((d.release r.i0).release r.i1).desc r.i2 = d.desc r.i2 := by
    simp [Function.update_of_ne (Ne.symm h02), Function.update_of_ne (Ne.symm h12)]
  -- the status descriptor ends the chain
  rw [freeChain_of_last
    (by simp [Function.update_of_ne (Ne.symm h02), Function.update_of_ne (Ne.symm h12), hb2])
    (by rw [h2', h2]; dsimp only; decide)]
  rfl

/-! ### The driver over requests and completions -/

/-- The driver: the disk and the requests in flight, oldest first. -/
structure VSys where
  disk : Disk
  inflight : List Req

def VSys.init : VSys := ⟨Disk.init, []⟩

/-- `rw`: `virtio_disk_rw` up to its wait, holding `vdisk_lock` (one attempt of its allocation
loop; a failed one sleeps and is tried again by a later `rw`).  `done k`: the `k`-th request in
flight, woken once the device has finished it, frees its chain. -/
inductive VOp
  | rw (b : Nat) (data : UInt64) (blockno : UInt32) (write : Bool)
  | done (k : Nat)

def vStep (L : Layout) (s : VSys) : VOp → Option VSys
  | .rw b data blockno write =>
    match alloc3Desc s.disk with
    | none => none
    | some (r, idx, d) =>
      if r = 0 then
        match idx with
        | [i0, i1, i2] =>
          some ⟨format L d i0 i1 i2 b data blockno write,
            s.inflight ++ [⟨b, data, write, i0, i1, i2⟩]⟩
        | _ => none
      else some ⟨d, s.inflight⟩
  | .done k =>
    match s.inflight[k]? with
    | none => none
    | some r =>
      -- `disk.info[idx[0]].b = 0; free_chain(idx[0]);`
      let d := { s.disk with info := Function.update s.disk.info r.i0 { s.disk.info r.i0 with b := 0 } }
      (freeChain d r.i0).map fun d' => ⟨d', s.inflight.eraseIdx k⟩

/-- The driver's invariant: free descriptors are zero, the chains in flight use distinct
descriptors and exactly those in use, and each holds what its request wrote. -/
structure VOk (L : Layout) (s : VSys) : Prop where
  zero : ∀ i, s.disk.free i = true → s.disk.desc i = VirtqDesc.zero
  nodup : (s.inflight.flatMap Req.descs).Nodup
  busy : ∀ i, s.disk.free i = false ↔ i ∈ s.inflight.flatMap Req.descs
  chained : ∀ r ∈ s.inflight, Chained L s.disk r
  info : ∀ r ∈ s.inflight, (s.disk.info r.i0).b = r.b

theorem vOk_init (L : Layout) : VOk L VSys.init where
  zero _ _ := rfl
  nodup := List.nodup_nil
  busy i := by simp [VSys.init, Disk.init]
  chained _ h := absurd h List.not_mem_nil
  info _ h := absurd h List.not_mem_nil

/-- A request takes three descriptors that were free, so they lie in no chain in flight. -/
theorem VOk.not_mem_of_free {L : Layout} {s : VSys} (h : VOk L s) {i : Fin NUM}
    (hi : s.disk.free i = true) : i ∉ s.inflight.flatMap Req.descs := by
  intro hm
  rw [← h.busy i, hi] at hm
  exact Bool.noConfusion hm

/-- `rw` never panics and keeps the invariant: either it starts a request on three free
descriptors, or it sleeps with the state unchanged. -/
theorem VOk.rw {L : Layout} {s : VSys} (h : VOk L s) (b : Nat) (data : UInt64) (blockno : UInt32)
    (write : Bool) : ∃ s', vStep L s (.rw b data blockno write) = some s' ∧ VOk L s' := by
  rcases alloc3Desc_spec h.zero with ⟨i0, i1, i2, hnd, hfree, heq⟩ | ⟨idx, heq⟩
  · refine ⟨⟨format L (s.disk.markUsed [i0, i1, i2]) i0 i1 i2 b data blockno write,
      s.inflight ++ [⟨b, data, write, i0, i1, i2⟩]⟩, by simp only [vStep, heq, if_true], ?_⟩
    have hnew : ∀ i ∈ [i0, i1, i2], i ∉ s.inflight.flatMap Req.descs :=
      fun i hi => h.not_mem_of_free (hfree i hi)
    -- descriptors of older requests are none of the three
    have hold : ∀ r ∈ s.inflight, ∀ i ∈ r.descs, i ∉ [i0, i1, i2] := fun r hr i hi hi' =>
      hnew i hi' (List.mem_flatMap.mpr ⟨r, hr, hi⟩)
    refine ⟨fun i hi => ?_, ?_, fun i => ?_, fun r hr => ?_, fun r hr => ?_⟩
    · simp only [format_free, Disk.markUsed] at hi
      split_ifs at hi with him
      rw [format_desc_of_not_mem L _ b data blockno write him]
      exact h.zero i hi
    · rw [List.flatMap_append, List.nodup_append]
      refine ⟨h.nodup, by simpa [Req.descs] using hnd, fun a ha c hc hac => ?_⟩
      rw [← hac] at hc
      exact hnew a (by simpa [Req.descs] using hc) ha
    · simp only [format_free, Disk.markUsed, List.flatMap_append, List.mem_append]
      by_cases him : i ∈ [i0, i1, i2]
      · simp [him, Req.descs]
      · have hB : i ∉ [(⟨b, data, write, i0, i1, i2⟩ : Req)].flatMap Req.descs := by
          simpa [Req.descs] using him
        simp only [him, if_false, h.busy i, hB, or_false]
    · rcases List.mem_append.mp hr with hr | hr
      · exact (h.chained r hr).frame fun i hi =>
          format_desc_of_not_mem L _ b data blockno write (hold r hr i hi)
      · rw [List.mem_singleton.mp hr]
        exact chained_format L _ b data blockno write hnd
    · rcases List.mem_append.mp hr with hr | hr
      · have hne : r.i0 ≠ i0 := fun he =>
          hold r hr r.i0 (by simp [Req.descs]) (by simp [he])
        rw [format_info_of_ne L _ b data blockno write hne]
        exact h.info r hr
      · rw [List.mem_singleton.mp hr]
        exact format_info_self L _ i0 i1 i2 b data blockno write
  · refine ⟨s, ?_, h⟩
    simp only [vStep, heq]
    rfl

/-- The chains in flight after request `k` completes are its chain's complement among them. -/
theorem flatMap_perm_eraseIdx {l : List Req} {k : Nat} {r : Req} (hr : l[k]? = some r) :
    (r.descs ++ (l.eraseIdx k).flatMap Req.descs).Perm (l.flatMap Req.descs) := by
  obtain ⟨hk, rfl⟩ := List.getElem?_eq_some_iff.mp hr
  simpa using (List.getElem_cons_eraseIdx_perm hk).flatMap_right Req.descs

/-- `done k` on a request in flight never panics: `free_chain` frees exactly its chain, and the
invariant holds after. -/
theorem VOk.done {L : Layout} {s : VSys} (h : VOk L s) {k : Nat} {r : Req}
    (hr : s.inflight[k]? = some r) :
    ∃ s', vStep L s (.done k) = some s' ∧ VOk L s' ∧ s'.inflight = s.inflight.eraseIdx k ∧
      ∀ i, s'.disk.free i = if i ∈ r.descs then true else s.disk.free i := by
  obtain ⟨d, hd⟩ : ∃ d : Disk,
      d = { s.disk with info := Function.update s.disk.info r.i0 { s.disk.info r.i0 with b := 0 } } :=
    ⟨_, rfl⟩
  have hperm := flatMap_perm_eraseIdx hr
  have hmem : ∀ i, i ∈ s.inflight.flatMap Req.descs ↔
      i ∈ r.descs ∨ i ∈ (s.inflight.eraseIdx k).flatMap Req.descs := fun i => by
    rw [← hperm.mem_iff, List.mem_append]
  obtain ⟨hndr, hndrest, hdisj⟩ := List.nodup_append.mp (hperm.nodup_iff.mpr h.nodup)
  have hrin : r ∈ s.inflight := List.mem_of_getElem? hr
  -- `free_chain` runs on the disk with `info[idx[0]].b` cleared, which has the same descriptors
  have hfc : freeChain d r.i0 = some (d.releaseAll r.descs) :=
    freeChain_chained ((h.chained r hrin).frame fun _ _ => by rw [hd])
      hndr fun i hi => by rw [hd]; exact (h.busy i).mpr ((hmem i).mpr (Or.inl hi))
  have hrest : ∀ r' ∈ s.inflight.eraseIdx k, r' ∈ s.inflight := fun r' hr' =>
    (List.eraseIdx_sublist _ _).subset hr'
  have hout : ∀ r' ∈ s.inflight.eraseIdx k, ∀ i ∈ r'.descs, i ∉ r.descs := fun r' hr' i hi hir =>
    hdisj i hir i (List.mem_flatMap.mpr ⟨r', hr', hi⟩) rfl
  refine ⟨⟨d.releaseAll r.descs, s.inflight.eraseIdx k⟩, ?_, ?_, rfl, fun i => ?_⟩
  · simp only [vStep, hr, ← hd, hfc, Option.map_some]
  · refine ⟨fun i hi => ?_, hndrest, fun i => ?_, fun r' hr' => ?_, fun r' hr' => ?_⟩
    · simp only [releaseAll_free] at hi
      simp only [releaseAll_desc]
      split_ifs at hi ⊢ with hir
      · rfl
      · rw [hd] at hi ⊢
        exact h.zero i hi
    · simp only [releaseAll_free]
      by_cases hir : i ∈ r.descs
      · simp only [hir, if_true, Bool.true_eq_false, false_iff]
        exact fun hi => hdisj i hir i hi rfl
      · simp only [hir, if_false]
        rw [hd]
        simp [h.busy i, hmem i, hir]
    · exact (h.chained r' (hrest r' hr')).frame fun i hi => by
        rw [releaseAll_desc, if_neg (hout r' hr' i hi), hd]
    · have hne : r'.i0 ≠ r.i0 := fun he =>
        hout r' hr' r'.i0 (by simp [Req.descs]) (by simp [he, Req.descs])
      rw [releaseAll_info, hd]
      simp only [Function.update_of_ne hne]
      exact h.info r' (hrest r' hr')
  · simp only [releaseAll_free, hd]

theorem VOk.step {L : Layout} {s s' : VSys} (h : VOk L s) {op : VOp}
    (hs : vStep L s op = some s') : VOk L s' := by
  cases op with
  | rw b data blockno write =>
    obtain ⟨s'', hs'', hok⟩ := h.rw b data blockno write
    rw [hs] at hs''
    cases hs''
    exact hok
  | done k =>
    cases hr : s.inflight[k]? with
    | none => simp [vStep, hr] at hs
    | some r =>
      obtain ⟨s'', hs'', hok, -⟩ := h.done hr
      rw [hs] at hs''
      cases hs''
      exact hok

/-- The states the driver reaches from `virtio_disk_init` by requests and completions. -/
def VReachable (L : Layout) (s : VSys) : Prop := LTS.Reachable (vStep L) VSys.init s

theorem VReachable.vOk {L : Layout} {s : VSys} (h : VReachable L s) : VOk L s :=
  LTS.Reachable.inv (P := VOk L) (vOk_init L) (fun _ _ _ hP hs => hP.step hs) h

/-- With the chains' descriptors distinct, a descriptor lies in as many chains as it occurs in
their concatenation: once or not at all. -/
theorem length_filter_mem {l : List Req} (hnd : (l.flatMap Req.descs).Nodup) (i : Fin NUM) :
    (l.filter fun r => i ∈ r.descs).length = if i ∈ l.flatMap Req.descs then 1 else 0 := by
  induction l with
  | nil => simp
  | cons r l ih =>
    rw [List.flatMap_cons, List.nodup_append] at hnd
    obtain ⟨-, hndl, hdisj⟩ := hnd
    rw [List.filter_cons, List.flatMap_cons]
    by_cases hir : i ∈ r.descs
    · have hil : i ∉ l.flatMap Req.descs := fun hil => hdisj i hir i hil rfl
      simp [hir, hil, ih hndl]
    · simp [hir, ih hndl]

/-- `alloc3_desc` takes three distinct free descriptors or changes nothing; `free_chain` on the
chain `virtio_disk_rw` writes frees exactly those three; and from `virtio_disk_init`, over any
requests and completions, every descriptor is free or in exactly one chain in flight, and neither
step panics. -/
theorem virtio_descriptors_ok (L : Layout) :
    (∀ d : Disk, (∀ i, d.free i = true → d.desc i = VirtqDesc.zero) →
      ∃ r idx d', alloc3Desc d = some (r, idx, d') ∧
        ((r = 0 ∧ idx.length = 3 ∧ idx.Nodup ∧ (∀ i ∈ idx, d.free i = true) ∧
            d'.free = (fun i => if i ∈ idx then false else d.free i) ∧ d'.desc = d.desc) ∨
          (r = -1 ∧ d'.free = d.free ∧ d'.desc = d.desc))) ∧
    (∀ (d : Disk) (i0 i1 i2 : Fin NUM) (b : Nat) (data : UInt64) (blockno : UInt32) (write : Bool),
      [i0, i1, i2].Nodup → (∀ i ∈ [i0, i1, i2], d.free i = false) →
      ∃ d', freeChain (format L d i0 i1 i2 b data blockno write) i0 = some d' ∧
        d'.free = (fun i => if i ∈ [i0, i1, i2] then true else d.free i) ∧
        ∀ i, d'.desc i = if i ∈ [i0, i1, i2] then VirtqDesc.zero
          else (format L d i0 i1 i2 b data blockno write).desc i) ∧
    (∀ s, VReachable L s →
      (∀ r ∈ s.inflight, r.descs.Nodup) ∧
      (∀ i, (s.inflight.filter fun r => i ∈ r.descs).length = if s.disk.free i then 0 else 1) ∧
      (∀ b data blockno write, (vStep L s (.rw b data blockno write)).isSome) ∧
      ∀ k < s.inflight.length, (vStep L s (.done k)).isSome) := by
  refine ⟨fun d hz => ?_, fun d i0 i1 i2 b data blockno write hnd hb => ?_, fun s hs => ?_⟩
  · rcases alloc3Desc_spec hz with ⟨i0, i1, i2, hnd, hfree, heq⟩ | ⟨idx, heq⟩
    · exact ⟨0, [i0, i1, i2], _, heq, Or.inl ⟨rfl, rfl, hnd, hfree, rfl, rfl⟩⟩
    · exact ⟨-1, idx, d, heq, Or.inr ⟨rfl, rfl, rfl⟩⟩
  · have hc := chained_format L d b data blockno write hnd
    refine ⟨_, freeChain_chained hc hnd hb, funext fun i => ?_, fun i => releaseAll_desc _ _ i⟩
    rw [releaseAll_free, format_free]
    rfl
  · have h := hs.vOk
    refine ⟨fun r hr => (List.nodup_flatMap.mp h.nodup).1 r hr, fun i => ?_,
      fun b data blockno write => ?_, fun k hk => ?_⟩
    · rw [length_filter_mem h.nodup]
      cases hf : s.disk.free i
      · simp [(h.busy i).mp hf]
      · simp [h.not_mem_of_free hf]
    · obtain ⟨s', hs', -⟩ := h.rw b data blockno write
      simp [hs']
    · obtain ⟨s', hs', -⟩ := h.done (List.getElem?_eq_getElem hk)
      simp [hs']

end Xv6Sched.Virtio
