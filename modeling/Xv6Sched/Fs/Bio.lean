import Mathlib.Data.Fintype.Card
import Mathlib.Data.Fintype.Fin
import Xv6Sched.Lib.DList
import Xv6Sched.Lib.Lts
import Xv6Sched.Lib.Word
import Xv6Sched.Fs.Log

/-!
# Xv6Sched.Fs.Bio — the buffer cache of `kernel/bio.c`

`bcache` holds `NBUF` buffers on a circular doubly-linked list through `bcache.head`, most
recently released first (`Xv6Sched.Lib.DList`).  `bget` looks for the block from the head
forward, and else recycles the unused buffer nearest the tail; `brelse` moves a buffer to the
front when its last reference goes; `bpin`/`bunpin` count references without moving it.  The
buffers' data, their sleep-locks and the disk are left out: the cache's bookkeeping reads and
writes none of them.

`BioSys` adds to the cache the list its pointers stand for (`order`) and, per buffer, the
`bget`s not yet matched by a `brelse` (`holders`: the process holding the buffer and those asleep
on its lock) and the outstanding pins.  Over any sequence of `bread`, `brelse` by a holder,
`bpin` and `bunpin` after a `bpin`, the invariant `BioOk` holds: the pointers are the list,
every buffer is on it once, no two buffers of a device other than `0` carry one block, and
`refcnt` counts the references modulo `2^32`, the range of its `uint`.  On it, `bget` is the
abstract lookup `bgetSpec` (`bget_eq_spec`).
-/

namespace Xv6Sched

/-- `NBUF`. -/
def NBUF : Nat := MAXOPBLOCKS * 3

/-- The fields of `struct buf` that the cache's bookkeeping reads and writes. -/
structure Buf where
  valid : Bool
  dev : UInt32
  blockno : UInt32
  refcnt : UInt32

/-- A node of the list: `&bcache.head` or a buffer. -/
abbrev BufNode := DList.Node (Fin NBUF)

/-- `bcache`: the buffers, and the `next` and `prev` fields of every node. -/
structure Bcache where
  buf : Fin NBUF → Buf
  next : BufNode → BufNode
  prev : BufNode → BufNode

/-- `binit()` on the zeroed `bcache`: the head linked to itself, then every buffer in front.
The buffers' links are written before they are read, so their zeroed values do not matter. -/
def binit : Bcache :=
  let links := (List.finRange NBUF).foldl (fun nx b => DList.insertFront nx.1 nx.2 (.elem b))
    ((fun _ => .head : BufNode → BufNode), (fun _ => .head : BufNode → BufNode))
  ⟨fun _ => ⟨false, 0, 0, 0⟩, links.1, links.2⟩

/-- `b->dev == dev && b->blockno == blockno`. -/
def Buf.tagged (b : Buf) (dev blockno : UInt32) : Bool := b.dev == dev && b.blockno == blockno

/-- `bget(dev, blockno)`: the buffer returned and the cache after; `none` is the panic
`bget: no buffers`.  Each loop runs until it is back at the head; its fuel, `NBUF + 1`, is more
than the list has buffers (`Path.scan_eq`). -/
def bget (bc : Bcache) (dev blockno : UInt32) : Option (Fin NBUF × Bcache) :=
  -- Is the block already cached?
  match DList.scan bc.next (fun b => (bc.buf b).tagged dev blockno) (NBUF + 1) (bc.next .head) with
  | some b => some (b, { bc with buf := Function.update bc.buf b { bc.buf b with refcnt := (bc.buf b).refcnt + 1 } })
  | none =>
    -- Recycle the least recently used unused buffer.
    match DList.scan bc.prev (fun b => (bc.buf b).refcnt == 0) (NBUF + 1) (bc.prev .head) with
    | some b => some (b, { bc with buf := Function.update bc.buf b ⟨false, dev, blockno, 1⟩ })
    | none => none

/-- `bread(dev, blockno)`: `bget`, then the block read from the disk unless the buffer holds it. -/
def bread (bc : Bcache) (dev blockno : UInt32) : Option (Fin NBUF × Bcache) :=
  (bget bc dev blockno).map fun r =>
    (r.1, { r.2 with buf := Function.update r.2.buf r.1 { r.2.buf r.1 with valid := true } })

/-- `brelse(b)`, by the holder of `b`'s lock. -/
def brelse (bc : Bcache) (b : Fin NBUF) : Bcache :=
  let bc := { bc with buf := Function.update bc.buf b { bc.buf b with refcnt := (bc.buf b).refcnt - 1 } }
  if (bc.buf b).refcnt = 0 then
    -- no one is waiting for it: to the front of the list
    let nx := DList.unlink bc.next bc.prev (.elem b)
    let nx := DList.insertFront nx.1 nx.2 (.elem b)
    { bc with next := nx.1, prev := nx.2 }
  else bc

/-- `bpin(b)`. -/
def bpin (bc : Bcache) (b : Fin NBUF) : Bcache :=
  { bc with buf := Function.update bc.buf b { bc.buf b with refcnt := (bc.buf b).refcnt + 1 } }

/-- `bunpin(b)`. -/
def bunpin (bc : Bcache) (b : Fin NBUF) : Bcache :=
  { bc with buf := Function.update bc.buf b { bc.buf b with refcnt := (bc.buf b).refcnt - 1 } }

/-! ### Every sequence of calls -/

/-- A call on the cache. -/
inductive BioOp
  | bread (dev blockno : UInt32)
  | brelse (b : Fin NBUF)
  | bpin (b : Fin NBUF)
  | bunpin (b : Fin NBUF)

/-- The cache, the list its pointers stand for (most recently released first), and per buffer
the `bget`s not matched by a `brelse` and the outstanding pins. -/
structure BioSys where
  bc : Bcache
  order : List (Fin NBUF)
  holders : Fin NBUF → Nat
  pins : Fin NBUF → Nat

/-- One call; `none` is a `brelse` by no holder or a `bunpin` of no pin, which no caller makes,
or the panic of `bget`. -/
def bioStep (s : BioSys) : BioOp → Option BioSys
  | .bread dev blockno =>
    (bread s.bc dev blockno).map fun r =>
      ⟨r.2, s.order, Function.update s.holders r.1 (s.holders r.1 + 1), s.pins⟩
  | .brelse b =>
    if s.holders b = 0 then none
    else some ⟨brelse s.bc b, if (s.bc.buf b).refcnt - 1 = 0 then b :: s.order.erase b else s.order,
      Function.update s.holders b (s.holders b - 1), s.pins⟩
  | .bpin b => some ⟨bpin s.bc b, s.order, s.holders, Function.update s.pins b (s.pins b + 1)⟩
  | .bunpin b =>
    if s.pins b = 0 then none
    else some ⟨bunpin s.bc b, s.order, s.holders, Function.update s.pins b (s.pins b - 1)⟩

/-- The cache after `binit`: buffer `NBUF - 1` first. -/
def BioSys.init : BioSys := ⟨binit, (List.finRange NBUF).reverse, fun _ => 0, fun _ => 0⟩

/-- States reached from `binit` by any sequence of calls. -/
def BioReachable : BioSys → Prop := LTS.Reachable bioStep BioSys.init

/-- What `bget` is for, over the buffers from most to least recently released: the buffer
tagged with the block, else the unused buffer nearest the tail. -/
def bgetSpec (order : List (Fin NBUF)) (buf : Fin NBUF → Buf) (dev blockno : UInt32) : Option (Fin NBUF) :=
  match order.find? (fun b => (buf b).tagged dev blockno) with
  | some b => some b
  | none => order.reverse.find? (fun b => (buf b).refcnt == 0)

/-- No two buffers of a device other than `0` carry the same block. -/
def TagsUnique (buf : Fin NBUF → Buf) : Prop :=
  ∀ i j, (buf i).dev ≠ 0 → (buf i).tagged (buf j).dev (buf j).blockno → i = j

/-- What holds between any two calls. -/
structure BioOk (s : BioSys) : Prop where
  links : DList.Links s.bc.next s.bc.prev s.order
  all : ∀ b, b ∈ s.order
  unique : TagsUnique s.bc.buf
  refcnt : ∀ b, (s.bc.buf b).refcnt.toNat = (s.holders b + s.pins b) % 2 ^ 32

/-! ### The lookup -/

theorem Buf.tagged_iff {b : Buf} {dev blockno : UInt32} :
    b.tagged dev blockno = true ↔ b.dev = dev ∧ b.blockno = blockno := by
  simp [Buf.tagged]

/-- A step that keeps every buffer's tag keeps the tags unique. -/
theorem TagsUnique.congr {buf buf' : Fin NBUF → Buf} (h : TagsUnique buf)
    (ht : ∀ i, (buf' i).dev = (buf i).dev ∧ (buf' i).blockno = (buf i).blockno) : TagsUnique buf' := by
  intro i j hi hij
  rw [Buf.tagged_iff, (ht i).1, (ht i).2, (ht j).1, (ht j).2] at hij
  exact h i j (by rw [← (ht i).1]; exact hi) (Buf.tagged_iff.mpr hij)

/-- Retagging a buffer with a block that no buffer carries keeps the tags unique. -/
theorem TagsUnique.retag {buf : Fin NBUF → Buf} (h : TagsUnique buf) {b : Fin NBUF} {x : Buf}
    (hx : ∀ j, (buf j).tagged x.dev x.blockno = false) : TagsUnique (Function.update buf b x) := by
  intro i j hi hij
  by_cases hib : i = b
  · subst hib
    by_cases hjb : j = i
    · exact hjb.symm
    · rw [Function.update_self, Function.update_of_ne hjb, Buf.tagged_iff] at hij
      have := hx j
      rw [Buf.tagged_iff.mpr ⟨hij.1.symm, hij.2.symm⟩] at this
      cases this
  · by_cases hjb : j = b
    · subst hjb
      rw [Function.update_of_ne hib, Function.update_self] at hij
      have := hx i
      rw [hij] at this
      cases this
    · rw [Function.update_of_ne hib, Function.update_of_ne hjb] at hij
      rw [Function.update_of_ne hib] at hi
      exact h i j hi hij

variable {s : BioSys}

theorem BioOk.length_lt (h : BioOk s) : s.order.length < NBUF + 1 := by
  have := h.links.nodup.length_le_card
  rw [Fintype.card_fin] at this
  omega

/-- The hit loop of `bget` finds the first buffer of the list that carries the block. -/
theorem BioOk.scan_next (h : BioOk s) (p : Fin NBUF → Bool) :
    DList.scan s.bc.next p (NBUF + 1) (s.bc.next .head) = s.order.find? p :=
  h.links.fwd.scan_eq h.length_lt p

/-- The recycling loop of `bget` finds the last unused buffer of the list. -/
theorem BioOk.scan_prev (h : BioOk s) (p : Fin NBUF → Bool) :
    DList.scan s.bc.prev p (NBUF + 1) (s.bc.prev .head) = s.order.reverse.find? p :=
  h.links.bwd.scan_eq (by rw [List.length_reverse]; exact h.length_lt) p

/-- `bget` on a cached block: the buffer that carries it, one reference more. -/
theorem bget_hit (h : BioOk s) {dev blockno : UInt32} {b : Fin NBUF}
    (hb : s.order.find? (fun b => (s.bc.buf b).tagged dev blockno) = some b) :
    bget s.bc dev blockno =
      some (b, { s.bc with buf := Function.update s.bc.buf b { s.bc.buf b with refcnt := (s.bc.buf b).refcnt + 1 } }) := by
  unfold bget
  rw [h.scan_next, hb]

/-- `bget` on a block not cached: the last unused buffer, retagged. -/
theorem bget_miss (h : BioOk s) {dev blockno : UInt32} {b : Fin NBUF}
    (hm : s.order.find? (fun b => (s.bc.buf b).tagged dev blockno) = none)
    (hb : s.order.reverse.find? (fun b => (s.bc.buf b).refcnt == 0) = some b) :
    bget s.bc dev blockno = some (b, { s.bc with buf := Function.update s.bc.buf b ⟨false, dev, blockno, 1⟩ }) := by
  unfold bget
  rw [h.scan_next, hm, h.scan_prev, hb]

/-- `bget` panics exactly when the block is not cached and every buffer is in use. -/
theorem bget_none (h : BioOk s) {dev blockno : UInt32} :
    bget s.bc dev blockno = none ↔ s.order.find? (fun b => (s.bc.buf b).tagged dev blockno) = none ∧
      s.order.reverse.find? (fun b => (s.bc.buf b).refcnt == 0) = none := by
  unfold bget
  rw [h.scan_next, h.scan_prev]
  cases s.order.find? (fun b => (s.bc.buf b).tagged dev blockno) with
  | some b => simp
  | none => cases s.order.reverse.find? (fun b => (s.bc.buf b).refcnt == 0) <;> simp

/-- On the invariant, `bget` is the abstract lookup. -/
theorem bget_eq_spec (h : BioOk s) (dev blockno : UInt32) :
    (bget s.bc dev blockno).map Prod.fst = bgetSpec s.order s.bc.buf dev blockno := by
  unfold bget bgetSpec
  rw [h.scan_next, h.scan_prev]
  cases s.order.find? (fun b => (s.bc.buf b).tagged dev blockno) with
  | some b => rfl
  | none => cases s.order.reverse.find? (fun b => (s.bc.buf b).refcnt == 0) <;> rfl

/-! ### The invariant -/

/-- A write of one buffer that keeps its tag keeps the tags unique. -/
theorem TagsUnique.update_same {buf : Fin NBUF → Buf} (h : TagsUnique buf) {b : Fin NBUF} {x : Buf}
    (hd : x.dev = (buf b).dev) (hb : x.blockno = (buf b).blockno) : TagsUnique (Function.update buf b x) := by
  refine h.congr fun i => ?_
  by_cases hi : i = b
  · subst hi
    rw [Function.update_self]
    exact ⟨hd, hb⟩
  · rw [Function.update_of_ne hi]
    exact ⟨rfl, rfl⟩

/-- A write of one buffer's count that follows its references keeps every count right. -/
theorem refcnt_update {buf : Fin NBUF → Buf} {holders pins : Fin NBUF → Nat}
    (h : ∀ i, (buf i).refcnt.toNat = (holders i + pins i) % 2 ^ 32) {b : Fin NBUF} {x : Buf} {hv pv : Nat}
    (hx : x.refcnt.toNat = (hv + pv) % 2 ^ 32) (i : Fin NBUF) :
    (Function.update buf b x i).refcnt.toNat =
      (Function.update holders b hv i + Function.update pins b pv i) % 2 ^ 32 := by
  by_cases hi : i = b
  · subst hi
    simp only [Function.update_self]
    exact hx
  · simp only [Function.update_of_ne hi]
    exact h i

theorem bioOk_init : BioOk BioSys.init := by
  have hl : DList.Links binit.next binit.prev ((List.finRange NBUF).reverse ++ []) :=
    DList.Links.foldl_insertFront (List.finRange NBUF) (DList.links_nil rfl rfl)
      (by rw [List.append_nil]; exact List.nodup_reverse.mpr (List.nodup_finRange NBUF))
  rw [List.append_nil] at hl
  exact ⟨hl, fun b => List.mem_reverse.mpr (List.mem_finRange b), fun _ _ hi _ => absurd rfl hi, fun _ => rfl⟩

section Steps

variable {s' : BioSys}

/-- `bread` of a cached block. -/
theorem bread_hit (h : BioOk s) {dev blockno : UInt32} {b : Fin NBUF}
    (hb : s.order.find? (fun b => (s.bc.buf b).tagged dev blockno) = some b) :
    Xv6Sched.bread s.bc dev blockno = some (b, { s.bc with
      buf := Function.update s.bc.buf b { s.bc.buf b with refcnt := (s.bc.buf b).refcnt + 1, valid := true } }) := by
  simp only [Xv6Sched.bread, bget_hit h hb, Option.map_some, Function.update_self, Function.update_idem]

/-- `bread` of a block not cached. -/
theorem bread_miss (h : BioOk s) {dev blockno : UInt32} {b : Fin NBUF}
    (hm : s.order.find? (fun b => (s.bc.buf b).tagged dev blockno) = none)
    (hb : s.order.reverse.find? (fun b => (s.bc.buf b).refcnt == 0) = some b) :
    Xv6Sched.bread s.bc dev blockno =
      some (b, { s.bc with buf := Function.update s.bc.buf b ⟨true, dev, blockno, 1⟩ }) := by
  simp only [Xv6Sched.bread, bget_miss h hm hb, Option.map_some, Function.update_self, Function.update_idem]

theorem BioOk.bread (h : BioOk s) {dev blockno : UInt32} (hs : bioStep s (.bread dev blockno) = some s') :
    BioOk s' := by
  simp only [bioStep] at hs
  cases hf : s.order.find? (fun b => (s.bc.buf b).tagged dev blockno) with
  | some b =>
    -- a hit: one reference more on the buffer that carries the block
    rw [bread_hit h hf, Option.map_some, Option.some.injEq] at hs
    subst hs
    have hx : ({ s.bc.buf b with refcnt := (s.bc.buf b).refcnt + 1, valid := true } : Buf).refcnt.toNat =
        (s.holders b + 1 + s.pins b) % 2 ^ 32 := by
      rw [Nat.add_right_comm]
      exact UInt32.toNat_add_one_of_mod (h.refcnt b)
    have hr := @refcnt_update _ _ _ h.refcnt b _ _ _ hx
    rw [Function.update_eq_self] at hr
    exact ⟨h.links, h.all, h.unique.update_same rfl rfl, hr⟩
  | none =>
    cases hg : s.order.reverse.find? (fun b => (s.bc.buf b).refcnt == 0) with
    | none =>
      have hn := (bget_none h).mpr ⟨hf, hg⟩
      simp only [Xv6Sched.bread, hn, Option.map_none] at hs
      cases hs
    | some b =>
      -- a miss: the last unused buffer, retagged with one reference
      rw [bread_miss h hf hg, Option.map_some, Option.some.injEq] at hs
      subst hs
      have h0 : (s.bc.buf b).refcnt = 0 := by simpa using List.find?_some hg
      have hx : ({ valid := true, dev := dev, blockno := blockno, refcnt := 1 } : Buf).refcnt.toNat =
          (s.holders b + 1 + s.pins b) % 2 ^ 32 := by
        have := h.refcnt b
        rw [h0, UInt32.toNat_zero] at this
        show 1 = _
        omega
      have hr := @refcnt_update _ _ _ h.refcnt b _ _ _ hx
      rw [Function.update_eq_self] at hr
      refine ⟨h.links, h.all, h.unique.retag fun j => ?_, hr⟩
      -- no buffer carried the block
      simpa using List.find?_eq_none.mp hf j (h.all j)

theorem BioOk.brelse (h : BioOk s) {b : Fin NBUF} (hs : bioStep s (.brelse b) = some s') : BioOk s' := by
  by_cases hh : s.holders b = 0
  · simp [bioStep, hh] at hs
  -- one reference less, tag unchanged
  have hx : ({ s.bc.buf b with refcnt := (s.bc.buf b).refcnt - 1 } : Buf).refcnt.toNat =
      (s.holders b - 1 + s.pins b) % 2 ^ 32 := by
    rw [show s.holders b - 1 + s.pins b = s.holders b + s.pins b - 1 by omega]
    exact UInt32.toNat_sub_one_of_mod (h.refcnt b) (by omega)
  have hu : TagsUnique (Function.update s.bc.buf b { s.bc.buf b with refcnt := (s.bc.buf b).refcnt - 1 }) :=
    h.unique.update_same rfl rfl
  have hr := @refcnt_update _ _ _ h.refcnt b _ _ _ hx
  rw [Function.update_eq_self] at hr
  simp only [bioStep, if_neg hh, Option.some.injEq] at hs
  subst hs
  unfold Xv6Sched.brelse
  simp only [Function.update_self]
  split_ifs with h0
  · -- the last reference: to the front of the list
    refine ⟨h.links.moveFront (h.all b), fun c => ?_, hu, hr⟩
    by_cases hc : c = b
    · exact hc ▸ List.mem_cons_self
    · exact List.mem_cons_of_mem _ ((List.mem_erase_of_ne hc).mpr (h.all c))
  · exact ⟨h.links, h.all, hu, hr⟩

theorem BioOk.bpin (h : BioOk s) {b : Fin NBUF} (hs : bioStep s (.bpin b) = some s') : BioOk s' := by
  simp only [bioStep, Option.some.injEq] at hs
  subst hs
  have hx : ({ s.bc.buf b with refcnt := (s.bc.buf b).refcnt + 1 } : Buf).refcnt.toNat =
      (s.holders b + (s.pins b + 1)) % 2 ^ 32 := by
    rw [← Nat.add_assoc]
    exact UInt32.toNat_add_one_of_mod (h.refcnt b)
  have hr := @refcnt_update _ _ _ h.refcnt b _ _ _ hx
  rw [Function.update_eq_self] at hr
  exact ⟨h.links, h.all, h.unique.update_same rfl rfl, hr⟩

theorem BioOk.bunpin (h : BioOk s) {b : Fin NBUF} (hs : bioStep s (.bunpin b) = some s') : BioOk s' := by
  simp only [bioStep] at hs
  split_ifs at hs with hp
  cases hs
  have hx : ({ s.bc.buf b with refcnt := (s.bc.buf b).refcnt - 1 } : Buf).refcnt.toNat =
      (s.holders b + (s.pins b - 1)) % 2 ^ 32 := by
    rw [show s.holders b + (s.pins b - 1) = s.holders b + s.pins b - 1 by omega]
    exact UInt32.toNat_sub_one_of_mod (h.refcnt b) (by omega)
  have hr := @refcnt_update _ _ _ h.refcnt b _ _ _ hx
  rw [Function.update_eq_self] at hr
  exact ⟨h.links, h.all, h.unique.update_same rfl rfl, hr⟩

theorem BioOk.step (h : BioOk s) : ∀ {op : BioOp}, bioStep s op = some s' → BioOk s'
  | .bread _ _, hs => h.bread hs
  | .brelse _, hs => h.brelse hs
  | .bpin _, hs => h.bpin hs
  | .bunpin _, hs => h.bunpin hs

end Steps

theorem BioReachable.bioOk (h : BioReachable s) : BioOk s :=
  LTS.Reachable.inv bioOk_init (fun _ _ _ hs e => hs.step e) h

/-- A search over a list of every buffer is a search over every buffer. -/
theorem find?_eq_none_of_all {l : List (Fin NBUF)} (hl : ∀ b, b ∈ l) (p : Fin NBUF → Bool) :
    l.find? p = none ↔ ∀ b, p b = false := by
  rw [List.find?_eq_none]
  exact ⟨fun hn b => by simpa using hn b (hl b), fun hn b _ => by simp [hn b]⟩

/-- Whatever the sequence of calls: following `next` from the head visits every buffer exactly
once before it comes back, and `prev` undoes `next` on every node; no two buffers of a device
other than `0` carry one block; each `refcnt` is the number of `bget`s not matched by a `brelse`
plus the outstanding pins, modulo `2^32`; and `bget` returns a buffer carrying the block when
one does, else retags the unused buffer nearest the tail, and panics only when every buffer is
in use. -/
theorem bcache_lru_coherent {s : BioSys} (h : BioReachable s) :
    (s.order.Nodup ∧ (∀ b, b ∈ s.order) ∧ DList.Path s.bc.next .head s.order .head ∧
      ∀ z, s.bc.prev (s.bc.next z) = z ∧ s.bc.next (s.bc.prev z) = z) ∧
    TagsUnique s.bc.buf ∧
    (∀ b, (s.bc.buf b).refcnt.toNat = (s.holders b + s.pins b) % 2 ^ 32) ∧
    ∀ dev blockno,
      (∀ b, (s.bc.buf b).tagged dev blockno = true →
        ∃ c, (bget s.bc dev blockno).map Prod.fst = some c ∧ (s.bc.buf c).tagged dev blockno = true) ∧
      ((∀ b, (s.bc.buf b).tagged dev blockno = false) →
        bget s.bc dev blockno = (s.order.reverse.find? fun b => (s.bc.buf b).refcnt == 0).map
          fun b => (b, { s.bc with buf := Function.update s.bc.buf b ⟨false, dev, blockno, 1⟩ })) ∧
      (bget s.bc dev blockno = none ↔ ∀ b, (s.bc.buf b).tagged dev blockno = false ∧ (s.bc.buf b).refcnt ≠ 0) := by
  have hok := h.bioOk
  refine ⟨⟨hok.links.nodup, hok.all, hok.links.fwd, fun z => hok.links.prev_next ?_⟩, hok.unique, hok.refcnt,
    fun dev blockno => ⟨fun b hb => ?_, fun hn => ?_, ?_⟩⟩
  · cases z with
    | head => exact Or.inl rfl
    | elem a => exact Or.inr ⟨a, hok.all a, rfl⟩
  · -- a hit: the first buffer of the list that carries the block
    cases hf : s.order.find? (fun b => (s.bc.buf b).tagged dev blockno) with
    | none => rw [(find?_eq_none_of_all hok.all _).mp hf b] at hb; cases hb
    | some c =>
      have hc := List.find?_some hf
      exact ⟨c, by rw [bget_hit hok hf]; rfl, hc⟩
  · -- a miss: the unused buffer nearest the tail
    have hf := (find?_eq_none_of_all hok.all (fun b => (s.bc.buf b).tagged dev blockno)).mpr hn
    cases hg : s.order.reverse.find? (fun b => (s.bc.buf b).refcnt == 0) with
    | none => exact (bget_none hok).mpr ⟨hf, hg⟩
    | some c => exact bget_miss hok hf hg
  · rw [bget_none hok, find?_eq_none_of_all hok.all,
      find?_eq_none_of_all fun b => List.mem_reverse.mpr (hok.all b)]
    simp only [beq_eq_false_iff_ne]
    exact ⟨fun h b => ⟨h.1 b, h.2 b⟩, fun h => ⟨fun b => (h b).1, fun b => (h b).2⟩⟩

/-- A block read and released stays in its buffer, and the next `bget` of it finds that buffer. -/
theorem bcache_lru_coherent_cached :
    ∃ s, BioReachable s ∧ (s.bc.buf ⟨0, by decide⟩).tagged 1 5 = true ∧
      ∃ c, (bget s.bc 1 5).map Prod.fst = some c ∧ (s.bc.buf c).tagged 1 5 = true := by
  obtain ⟨s, hs, ht⟩ : ∃ s, BioReachable s ∧ (s.bc.buf ⟨0, by decide⟩).tagged 1 5 = true :=
    LTS.exists_reachable_of_run [.bread 1 5, .brelse ⟨0, by decide⟩] (by decide)
  exact ⟨s, hs, ht, ((bcache_lru_coherent hs).2.2.2 1 5).1 _ ht⟩

/-- `n` pins of one buffer after `binit`, and no holder. -/
theorem exists_pinned (b : Fin NBUF) (n : Nat) : ∃ s, BioReachable s ∧ s.holders b = 0 ∧ s.pins b = n := by
  induction n with
  | zero => exact ⟨_, .init, rfl, rfl⟩
  | succ n ih =>
    obtain ⟨s, hs, hh, hp⟩ := ih
    exact ⟨_, .step (.bpin b) hs rfl, hh, by simp [hp]⟩

/-- `refcnt` is a `uint`: after `2^32` pins of a buffer it is back at `0`, with every pin
outstanding. -/
theorem bcache_refcnt_wraps :
    ∃ s b, BioReachable s ∧ (s.bc.buf b).refcnt = 0 ∧ s.holders b + s.pins b = 2 ^ 32 := by
  let b : Fin NBUF := ⟨0, by decide⟩
  obtain ⟨s, hs, hh, hp⟩ := exists_pinned b (2 ^ 32)
  refine ⟨s, b, hs, ?_, by omega⟩
  have hr := hs.bioOk.refcnt b
  rw [hh, hp] at hr
  exact UInt32.toNat_inj.mp hr

end Xv6Sched
