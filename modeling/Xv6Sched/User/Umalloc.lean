import Mathlib.Logic.Function.Basic
import Xv6Sched.Lib.Word

/-!
# Xv6Sched.User.Umalloc — `malloc`, `free` and `morecore` of `user/umalloc.c`

The allocator of Kernighan and Ritchie: a circular list of free blocks through `base`, each block
a `Header` followed by its space, sizes counted in units of `sizeof(Header)` = 16 bytes.  `Heap`
is the user memory the allocator reads and writes (a header at each address it follows), with
`freep` and the process's break.  `sbrk(n)` is `sys_sbrk` as its caller relies on it: `-1`, or
the old break with the break moved by `n`; `top` is the highest break the kernel grants.  The loops of `free` and `malloc` follow pointers and carry fuel: `none` is fuel run out,
and a result with some fuel is the result of the code.

`malloc` asks for `nunits` units that always cover the request and its header (`nunitsOf_covers`).
`morecore` computes `nu * sizeof(Header)` in 64 bits and passes it to `sbrk(int)`, which keeps the
low 32 bits: below `2^27` units the heap grows by the product (`sbrkArg_of_lt`), but from `2^28`
units on by the product less `2^32` (`sbrkArg_of_wrap`) while the new block's header still claims
`nu` units.  `malloc(4294967295)` then returns a block of `2^28 + 1` units of which the heap holds
none past its header, and the next `malloc` hands out memory inside it
(`malloc_truncated_sbrk`).
-/

namespace Xv6Sched

/-- `union header`: the next block on the free list, and the size of this one in units. -/
structure Header where
  ptr : Nat
  size : UInt32

/-- `sizeof(Header)`. -/
def HDRSIZE : Nat := 16

/-- The user memory the allocator touches (the header at each address), `freep` (`0` is NULL),
`&base`, and the break `p->sz`. -/
structure Heap where
  mem : Nat → Header
  base : Nat
  freep : Nat
  brk : Nat

/-- `a->s.ptr = v`. -/
def setPtr (mem : Nat → Header) (a v : Nat) : Nat → Header :=
  Function.update mem a { mem a with ptr := v }

/-- `a->s.size = v`. -/
def setSize (mem : Nat → Header) (a : Nat) (v : UInt32) : Nat → Header :=
  Function.update mem a { mem a with size := v }

/-- `p + n` for `Header *p`. -/
def hdrAdd (p : Nat) (n : UInt32) : Nat := p + HDRSIZE * n.toNat

/-- `sbrk(n)`: the old break, with the break moved by `n`; `none` is `-1`. -/
def sbrk (top : Nat) (n : Int32) (h : Heap) : Option (Nat × Heap) :=
  if 0 ≤ (h.brk : Int) + n.toInt ∧ (h.brk : Int) + n.toInt ≤ top then
    some (h.brk, { h with brk := ((h.brk : Int) + n.toInt).toNat })
  else none

/-- The search loop of `free`: from `p`, the free block after which `bp` goes, between `p` and
`p->s.ptr` or at the wrap-around point of the list. -/
def freeScan (mem : Nat → Header) (bp : Nat) : Nat → Nat → Option Nat
  | 0, _ => none
  | fuel + 1, p =>
    if bp > p ∧ bp < (mem p).ptr then some p
    else if p ≥ (mem p).ptr ∧ (bp > p ∨ bp < (mem p).ptr) then some p
    else freeScan mem bp fuel (mem p).ptr

/-- `free(ap)`. -/
def free (fuel : Nat) (ap : Nat) (h : Heap) : Option Heap := do
  let bp := ap - HDRSIZE
  let p ← freeScan h.mem bp fuel h.freep
  let mem := h.mem
  -- join to the upper neighbour, or link to it
  let mem :=
    if hdrAdd bp (mem bp).size = (mem p).ptr then
      let mem := setSize mem bp ((mem bp).size + (mem (mem p).ptr).size)
      setPtr mem bp (mem (mem p).ptr).ptr
    else setPtr mem bp (mem p).ptr
  -- join to the lower neighbour, or link to it
  let mem :=
    if hdrAdd p (mem p).size = bp then
      let mem := setSize mem p ((mem p).size + (mem bp).size)
      setPtr mem p (mem bp).ptr
    else setPtr mem p bp
  pure { h with mem := mem, freep := p }

/-- The argument of `sbrk` in `morecore`: `nu * sizeof(Header)`, a 64-bit product, converted to
`int`. -/
def sbrkArg (nu : UInt32) : Int32 := Int32.ofNat (nu.toNat * HDRSIZE)

/-- `morecore(nu)`: `freep` after the new block is freed, or `0` when `sbrk` fails. -/
def morecore (fuel top : Nat) (nu : UInt32) (h : Heap) : Option (Nat × Heap) :=
  let nu := if nu < 4096 then 4096 else nu
  match sbrk top (sbrkArg nu) h with
  | none => some (0, h)
  | some (p, h) =>
    -- `hp->s.size = nu; free((void*)(hp + 1)); return freep;`
    (free fuel (p + HDRSIZE) { h with mem := setSize h.mem p nu }).map fun h => (h.freep, h)

/-- `nunits` of `malloc(nbytes)`: computed in 64 bits (`sizeof` is a `size_t`), kept in a
`uint`. -/
def nunitsOf (nbytes : UInt32) : UInt32 := ((nbytes.toNat + HDRSIZE - 1) / HDRSIZE + 1).toUInt32

/-- The loop of `malloc` at `prevp` and `p = prevp->s.ptr`: the address it returns, `0` when
`morecore` fails. -/
def mallocLoop (top : Nat) (nunits : UInt32) : Nat → Nat → Nat → Heap → Option (Nat × Heap)
  | 0, _, _, _ => none
  | fuel + 1, prevp, p, h =>
    if (h.mem p).size ≥ nunits then
      if (h.mem p).size = nunits then
        some (p + HDRSIZE, { h with mem := setPtr h.mem prevp (h.mem p).ptr, freep := prevp })
      else
        -- the tail of the block is handed out
        let mem := setSize h.mem p ((h.mem p).size - nunits)
        let q := hdrAdd p (mem p).size
        some (q + HDRSIZE, { h with mem := setSize mem q nunits, freep := prevp })
    else if p = h.freep then
      match morecore fuel top nunits h with
      | none => none
      | some (0, h) => some (0, h)
      | some (p, h) => mallocLoop top nunits fuel p (h.mem p).ptr h
    else mallocLoop top nunits fuel p (h.mem p).ptr h

/-- `malloc(nbytes)`: the address it returns, `0` being NULL. -/
def malloc (fuel top : Nat) (nbytes : UInt32) (h : Heap) : Option (Nat × Heap) :=
  -- the first call makes `base` a free list of one block of size `0`
  let h := if h.freep = 0 then
      { h with mem := setSize (setPtr h.mem h.base h.base) h.base 0, freep := h.base }
    else h
  mallocLoop top (nunitsOf nbytes) fuel h.freep (h.mem h.freep).ptr h

/-! ### The size of a request -/

theorem nunitsOf_toNat (nbytes : UInt32) :
    (nunitsOf nbytes).toNat = (nbytes.toNat + HDRSIZE - 1) / HDRSIZE + 1 := by
  have := nbytes.toNat_lt
  unfold nunitsOf HDRSIZE
  rw [Nat.toUInt32_eq, UInt32.toNat_ofNat', Nat.mod_eq_of_lt (by omega)]

/-- The units `malloc` asks for hold the header and the bytes requested, for every `nbytes`. -/
theorem nunitsOf_covers (nbytes : UInt32) : nbytes.toNat + HDRSIZE ≤ HDRSIZE * (nunitsOf nbytes).toNat := by
  rw [nunitsOf_toNat]
  unfold HDRSIZE
  omega

/-- A product below `2^31` reaches `sbrk` whole. -/
theorem sbrkArg_of_lt {nu : UInt32} (h : nu.toNat * HDRSIZE < 2 ^ 31) :
    (sbrkArg nu).toInt = nu.toNat * HDRSIZE := by
  unfold sbrkArg
  rw [Int32.toInt_ofNat', Int32.size]
  push_cast
  exact Int.bmod_eq_of_le (by omega) (by omega)

/-- A product from `2^32` on (and below `2^32 + 2^31`) reaches `sbrk` less `2^32`. -/
theorem sbrkArg_of_wrap {nu : UInt32} (h : 2 ^ 32 ≤ nu.toNat * HDRSIZE)
    (h' : nu.toNat * HDRSIZE < 2 ^ 32 + 2 ^ 31) : (sbrkArg nu).toInt = nu.toNat * HDRSIZE - 2 ^ 32 := by
  unfold sbrkArg
  rw [Int32.toInt_ofNat', Int32.size]
  unfold HDRSIZE at *
  push_cast
  rw [Int.bmod_def]
  split <;> omega

/-! ### A request of `2^32 - 1` bytes -/

/-- A process's heap before its first `malloc`: the break at `16384`, `base` at `4096`. -/
def heap0 : Heap := ⟨fun _ => ⟨0, 0⟩, 4096, 0, 16384⟩

/-- `malloc(4294967295)` asks for `2^28 + 1` units; `morecore` moves the break by `16` bytes only
and frees a block claiming them all.  The pointer returned has no byte of the heap behind it, and
the next `malloc(1)` returns memory inside the first block while both are live. -/
theorem malloc_truncated_sbrk :
    ∃ h1 h2 q, malloc 4 (2 ^ 31) 4294967295 heap0 = some (16400, h1) ∧
      h1.brk = heap0.brk + 16 ∧ h1.brk < 16400 + 4294967295 ∧
      malloc 4 (2 ^ 31) 1 h1 = some (q, h2) ∧ 16400 ≤ q ∧ q + 1 ≤ 16400 + 4294967295 :=
  ⟨_, _, _, rfl, rfl, by decide, rfl, by decide, by decide⟩

end Xv6Sched
