import Xv6Sched.Lib.Lts
import Xv6Sched.Lib.Ring
import Xv6Sched.Lib.Word

/-!
# Xv6Sched.File.Pipe — the pipes of `kernel/pipe.c`

A pipe is a ring of `PIPESIZE` bytes and two `uint` counters: `nwrite` bytes were ever written
and `nread` read, so the pipe holds the `nwrite - nread` bytes from cell `nread % PIPESIZE` on
(`Pipe.contents`, a `Ring.view`).  A process's user memory is what `copyin` and `copyout` reach
of it (`UserMem`).

`pipewrite` and `piperead` hold the pipe's lock except while they sleep, so each run from taking
the lock to sleeping or returning is one atomic step: `pipewrite` resumes at the loop index where
it went to sleep, `piperead` from its top, since it tests again when woken.  `pipeStep` runs one
such step and keeps the bytes that went into the pipe (`appended`) and came out (`consumed`);
an interleaving of calls is a sequence of steps.

Over every reachable state, `nwrite - nread ≤ PIPESIZE` as a `uint` difference
(`pipe_count_le`), and the bytes taken out are the bytes put in, in order, less those still in
the pipe (`pipe_fifo`).  A read delivers every byte it takes when its `copyout`s succeed
(`pipereadLoop_delivers`), but `piperead` advances `nread` before the `copyout`, so the byte of
a failed copy is taken and never delivered (`piperead_fault_loses_byte`).
-/

namespace Xv6Sched

/-- `PIPESIZE`. -/
def PIPESIZE : Nat := 512

instance : NeZero PIPESIZE := ⟨by decide⟩

/-- `struct pipe`, without its lock. -/
structure Pipe where
  data : Fin PIPESIZE → UInt8
  nread : UInt32
  nwrite : UInt32
  readopen : Bool
  writeopen : Bool

/-- `nwrite - nread`: how many bytes the pipe holds. -/
def Pipe.count (pi : Pipe) : Nat := (pi.nwrite - pi.nread).toNat

/-- The bytes in the pipe, oldest first. -/
def Pipe.contents (pi : Pipe) : List UInt8 := Ring.view pi.data pi.nread.toNat pi.count

/-- The pipe `pipealloc` makes in a fresh page `page`: both ends open, nothing written. -/
def pipealloc (page : Fin PIPESIZE → UInt8) : Pipe := ⟨page, 0, 0, true, true⟩

/-- User memory as `copyin` and `copyout` reach it: the mapped addresses and their bytes. -/
structure UserMem where
  mapped : Nat → Bool
  bytes : Nat → UInt8

/-- `copyin` of one byte; `none` is its `-1`. -/
def copyin (m : UserMem) (a : Nat) : Option UInt8 := if m.mapped a then some (m.bytes a) else none

/-- `copyout` of one byte; `none` is its `-1`. -/
def copyout (m : UserMem) (a : Nat) (b : UInt8) : Option UserMem :=
  if m.mapped a then some { m with bytes := Function.update m.bytes a b } else none

/-- The `len` bytes at `addr`. -/
def UserMem.read (m : UserMem) (addr len : Nat) : List UInt8 :=
  (List.range len).map fun j => m.bytes (addr + j)

/-- How one step of a call ends: the call returns `v`, or it sleeps. -/
inductive Stop
  | ret (v : Int)
  | sleep
  deriving DecidableEq, Repr

/-- `pi->data[pi->nwrite++ % PIPESIZE] = ch`. -/
def Pipe.push (pi : Pipe) (ch : UInt8) : Pipe :=
  { pi with
    data := Function.update pi.data (Ring.cell PIPESIZE pi.nwrite.toNat) ch
    nwrite := pi.nwrite + 1 }

/-- The loop of `pipewrite` from index `i`, with at most `k = n - i` passes left: the pipe, the
index reached and how the step ends.  `ret (-1)`: the read end is closed or the writer killed;
`sleep`: the pipe is full (`wakeup(&pi->nread); sleep(&pi->nwrite)`), and the loop goes on at
the same index when woken; `ret i`: the loop ran out, or `copyin` failed (`break`). -/
def pipewriteLoop (killed : Bool) (src : UserMem) (addr : Nat) : Nat → Pipe → Nat → Pipe × Nat × Stop
  | 0, pi, i => (pi, i, .ret i)
  | k + 1, pi, i =>
    if !pi.readopen || killed then (pi, i, .ret (-1))
    else if pi.nwrite = pi.nread + PIPESIZE.toUInt32 then (pi, i, .sleep)
    else match copyin src (addr + i) with
      | none => (pi, i, .ret i)
      | some ch => pipewriteLoop killed src addr k (pi.push ch) (i + 1)

/-- One step of `pipewrite(pi, addr, n)`: the call (`i = 0`), or a wake-up at index `i`. -/
def pipewrite (killed : Bool) (src : UserMem) (addr : Nat) (n : Int) (pi : Pipe) (i : Nat) :
    Pipe × Nat × Stop :=
  pipewriteLoop killed src addr (n - i).toNat pi i

/-- The copy loop of `piperead` from index `i`, with at most `k` passes left.  It stops when
the pipe is empty, or when `copyout` fails, after `nread` was advanced past the byte. -/
def pipereadLoop (addr : Nat) : Nat → Pipe → UserMem → Nat → Pipe × UserMem × Nat
  | 0, pi, m, i => (pi, m, i)
  | k + 1, pi, m, i =>
    if pi.nread = pi.nwrite then (pi, m, i)
    else
      let ch := pi.data (Ring.cell PIPESIZE pi.nread.toNat)
      let pi := { pi with nread := pi.nread + 1 }
      match copyout m (addr + i) ch with
      | none => (pi, m, i)
      | some m => pipereadLoop addr k pi m (i + 1)

/-- One step of `piperead(pi, addr, n)`: it sleeps while the pipe is empty and its write end
open (returning `-1` if killed), and otherwise copies. -/
def piperead (killed : Bool) (dst : UserMem) (addr : Nat) (n : Int) (pi : Pipe) :
    Pipe × UserMem × Stop :=
  if pi.nread = pi.nwrite ∧ pi.writeopen = true then
    (pi, dst, if killed then .ret (-1) else .sleep)
  else
    let (pi, m, i) := pipereadLoop addr n.toNat pi dst 0
    (pi, m, .ret i)

/-- `pipeclose(pi, writable)`, up to the `kfree` of the page once both ends are closed. -/
def pipeclose (pi : Pipe) (writable : Bool) : Pipe :=
  if writable then { pi with writeopen := false } else { pi with readopen := false }

/-! ### Interleaved calls -/

/-- One atomic step of a call on the pipe. -/
inductive PipeOp
  | write (killed : Bool) (src : UserMem) (addr : Nat) (n : Int) (i : Nat)
  | read (killed : Bool) (dst : UserMem) (addr : Nat) (n : Int)
  | close (writable : Bool)

/-- The pipe, with every byte written into it and every byte read out of it, in order. -/
structure PipeSys where
  pipe : Pipe
  appended : List UInt8
  consumed : List UInt8

/-- One step; a write step appends the bytes it copied in, a read step consumes the bytes its
advance of `nread` passed over (`nwrite` stays, so they are as many as `count` went down). -/
def pipeStep (s : PipeSys) : PipeOp → PipeSys
  | .write killed src addr n i =>
    let (pi, i', _) := pipewrite killed src addr n s.pipe i
    ⟨pi, s.appended ++ src.read (addr + i) (i' - i), s.consumed⟩
  | .read killed dst addr n =>
    let (pi, _, _) := piperead killed dst addr n s.pipe
    ⟨pi, s.appended, s.consumed ++ s.pipe.contents.take (s.pipe.count - pi.count)⟩
  | .close writable => { s with pipe := pipeclose s.pipe writable }

/-- States reached from a fresh pipe by any interleaving of steps. -/
def PipeReachable (page : Fin PIPESIZE → UInt8) : PipeSys → Prop :=
  LTS.Reachable (fun s op => some (pipeStep s op)) ⟨pipealloc page, [], []⟩

/-! ### The pipe as a queue -/

section Queue

variable {pi : Pipe} {ch : UInt8}

@[simp] theorem Pipe.length_contents (pi : Pipe) : pi.contents.length = pi.count :=
  Ring.length_view _ _ _

/-- `nwrite` names the cell after the last byte in the pipe: the ring has `PIPESIZE ∣ 2 ^ 32`
cells, so the counters may wrap. -/
theorem Pipe.cell_nwrite (pi : Pipe) :
    Ring.cell PIPESIZE pi.nwrite.toNat = Ring.cell PIPESIZE (pi.nread.toNat + pi.count) := by
  rw [UInt32.toNat_eq_add_sub pi.nwrite pi.nread, Ring.cell_mod (by decide)]
  rfl

/-- The test `pi->nwrite == pi->nread + PIPESIZE` of a full pipe. -/
theorem Pipe.full_iff (pi : Pipe) : pi.nwrite = pi.nread + PIPESIZE.toUInt32 ↔ pi.count = PIPESIZE :=
  UInt32.eq_add_iff_toNat_sub

/-- The test `pi->nread == pi->nwrite` of an empty pipe. -/
theorem Pipe.empty_iff (pi : Pipe) : pi.nread = pi.nwrite ↔ pi.count = 0 :=
  eq_comm.trans UInt32.eq_iff_toNat_sub

theorem Pipe.count_push (h : pi.count < PIPESIZE) : (pi.push ch).count = pi.count + 1 := by
  have hc : pi.count < 2 ^ 32 - 1 := by unfold PIPESIZE at h; omega
  exact UInt32.toNat_add_one_sub hc

theorem Pipe.contents_push (h : pi.count < PIPESIZE) : (pi.push ch).contents = pi.contents ++ [ch] := by
  show Ring.view _ pi.nread.toNat (pi.push ch).count = _
  rw [Pipe.count_push h, Pipe.push, Pipe.cell_nwrite]
  exact Ring.view_push ch h

/-- `pi->nread++`. -/
theorem Pipe.count_pop (h : pi.count ≠ 0) : { pi with nread := pi.nread + 1 }.count + 1 = pi.count :=
  UInt32.toNat_sub_add_one (fun he => h ((Pipe.empty_iff pi).mp he.symm))

/-- The byte `piperead` takes is the head of the queue. -/
theorem Pipe.contents_pop (h : pi.count ≠ 0) :
    pi.contents = pi.data (Ring.cell PIPESIZE pi.nread.toNat) :: { pi with nread := pi.nread + 1 }.contents := by
  have hc := Pipe.count_pop h
  unfold Pipe.contents
  rw [← hc, Ring.view_pop]
  congr 1
  apply Ring.view_congr
  simp only [UInt32.toNat_add, UInt32.toNat_one]
  rw [Nat.mod_mod_of_dvd _ (by decide)]

theorem UserMem.read_succ (m : UserMem) (a len : Nat) : m.read a (len + 1) = m.bytes a :: m.read (a + 1) len := by
  simp only [UserMem.read, List.range_succ_eq_map, List.map_cons, List.map_map, Nat.add_zero]
  congr 1
  apply List.map_congr_left
  intro j _
  simp only [Function.comp, Nat.add_assoc, Nat.add_comm 1 j]

/-- A `copyout` at the end of what was delivered extends it by one byte. -/
theorem UserMem.read_copyout {m m' : UserMem} {addr i : Nat} {b : UInt8}
    (h : copyout m (addr + i) b = some m') : m'.read addr (i + 1) = m.read addr i ++ [b] := by
  unfold copyout at h
  split at h
  · cases h
    simp only [UserMem.read, List.range_succ, List.map_append, List.map_cons, List.map_nil,
      Function.update_self]
    congr 1
    apply List.map_congr_left
    intro j hj
    exact Function.update_of_ne (by have := List.mem_range.mp hj; omega) _ _
  · cases h

end Queue

/-! ### One step of a call -/

section Loops

variable {killed : Bool} {src dst : UserMem} {addr : Nat}

/-- A write step appends the bytes it copied in, in order, and fills the pipe no further than
`PIPESIZE`. -/
theorem pipewriteLoop_spec : ∀ {k : Nat} {pi pi' : Pipe} {i i' : Nat} {st : Stop},
    pipewriteLoop killed src addr k pi i = (pi', i', st) → pi.count ≤ PIPESIZE →
      pi'.count ≤ PIPESIZE ∧ pi'.nread = pi.nread ∧ pi'.writeopen = pi.writeopen ∧
        i ≤ i' ∧ pi'.contents = pi.contents ++ src.read (addr + i) (i' - i) := by
  intro k
  induction k with
  | zero =>
    intro pi pi' i i' st h hc
    cases h
    simp [hc, UserMem.read]
  | succ k ih =>
    intro pi pi' i i' st h hc
    simp only [pipewriteLoop] at h
    split at h
    · -- the read end is closed, or the writer killed
      cases h
      simp [hc, UserMem.read]
    split at h
    · -- the pipe is full: the call sleeps
      cases h
      simp [hc, UserMem.read]
    rename_i hfull
    have hlt : pi.count < PIPESIZE := Nat.lt_of_le_of_ne hc (fun he => hfull ((Pipe.full_iff pi).mpr he))
    split at h
    · -- `copyin` failed
      cases h
      simp [hc, UserMem.read]
    · rename_i ch hin
      obtain ⟨hc', hr, hw, hi, hcont⟩ := ih h (by rw [Pipe.count_push hlt]; exact hlt)
      have hb : src.bytes (addr + i) = ch := by
        unfold copyin at hin
        split at hin
        · exact Option.some.inj hin
        · cases hin
      refine ⟨hc', hr, hw, by omega, ?_⟩
      rw [hcont, Pipe.contents_push hlt, show i' - i = (i' - (i + 1)) + 1 by omega, UserMem.read_succ, hb,
        Nat.add_assoc]
      simp

/-- A read step takes bytes from the head of the queue, and leaves `nwrite` and the ring. -/
theorem pipereadLoop_spec : ∀ {k : Nat} {pi pi' : Pipe} {m m' : UserMem} {i i' : Nat},
    pipereadLoop addr k pi m i = (pi', m', i') →
      pi'.nwrite = pi.nwrite ∧ pi'.data = pi.data ∧ pi'.readopen = pi.readopen ∧
        pi'.writeopen = pi.writeopen ∧ pi'.count ≤ pi.count ∧
        pi.contents = pi.contents.take (pi.count - pi'.count) ++ pi'.contents := by
  intro k
  induction k with
  | zero =>
    intro pi pi' m m' i i' h
    cases h
    simp
  | succ k ih =>
    intro pi pi' m m' i i' h
    simp only [pipereadLoop] at h
    split at h
    · cases h
      simp
    rename_i hne
    have h0 : pi.count ≠ 0 := fun he => hne ((Pipe.empty_iff pi).mpr he)
    have hpop := Pipe.count_pop h0
    -- the byte is taken whether or not its `copyout` succeeds
    have htail : ∀ {pi'' : Pipe}, pi''.nwrite = pi.nwrite → pi''.data = pi.data →
        pi''.count ≤ { pi with nread := pi.nread + 1 }.count →
        { pi with nread := pi.nread + 1 }.contents =
          { pi with nread := pi.nread + 1 }.contents.take
            ({ pi with nread := pi.nread + 1 }.count - pi''.count) ++ pi''.contents →
        pi''.count ≤ pi.count ∧ pi.contents = pi.contents.take (pi.count - pi''.count) ++ pi''.contents := by
      intro pi'' _ _ hle hq
      refine ⟨by omega, ?_⟩
      rw [Pipe.contents_pop h0, show pi.count - pi''.count = ({ pi with nread := pi.nread + 1 }.count - pi''.count) + 1 by omega,
        List.take_succ_cons, List.cons_append, ← hq]
    split at h
    · cases h
      exact ⟨rfl, rfl, rfl, rfl, htail rfl rfl (Nat.le_refl _) (by simp)⟩
    · obtain ⟨hw, hd, hro, hwo, hle, hq⟩ := ih h
      exact ⟨hw, hd, hro, hwo, htail hw hd hle hq⟩

/-- When every `copyout` of a read succeeds, it delivers exactly the bytes it takes. -/
theorem pipereadLoop_delivers : ∀ {k : Nat} {pi pi' : Pipe} {m m' : UserMem} {i i' : Nat},
    pipereadLoop addr k pi m i = (pi', m', i') → (∀ j < k, m.mapped (addr + i + j) = true) →
      m'.read addr i' = m.read addr i ++ pi.contents.take (pi.count - pi'.count) := by
  intro k
  induction k with
  | zero =>
    intro pi pi' m m' i i' h _
    cases h
    simp
  | succ k ih =>
    intro pi pi' m m' i i' h hmap
    obtain ⟨-, -, -, -, hle, -⟩ := pipereadLoop_spec h
    simp only [pipereadLoop] at h
    split at h
    · cases h
      simp
    rename_i hne
    have h0 : pi.count ≠ 0 := fun he => hne ((Pipe.empty_iff pi).mpr he)
    have hpop := Pipe.count_pop h0
    split at h
    · -- the first `copyout` cannot fail: its address is mapped
      rename_i hout
      have hm := hmap 0 (Nat.succ_pos k)
      rw [Nat.add_zero] at hm
      simp [copyout, hm] at hout
    · rename_i m1 hout
      have hrest := ih h (fun j hj => by
        have := hmap (j + 1) (by omega)
        unfold copyout at hout
        split at hout
        · cases hout
          rw [show addr + (i + 1) + j = addr + i + (j + 1) by omega]
          exact this
        · cases hout)
      obtain ⟨-, -, -, -, hle', -⟩ := pipereadLoop_spec h
      rw [hrest, UserMem.read_copyout hout, Pipe.contents_pop h0,
        show pi.count - pi'.count = ({ pi with nread := pi.nread + 1 }.count - pi'.count) + 1 by omega,
        List.take_succ_cons]
      simp

end Loops

/-! ### Every interleaving -/

/-- What holds between any two steps. -/
structure PipeOk (s : PipeSys) : Prop where
  count_le : s.pipe.count ≤ PIPESIZE
  fifo : s.consumed ++ s.pipe.contents = s.appended

theorem pipeOk_init (page : Fin PIPESIZE → UInt8) : PipeOk ⟨pipealloc page, [], []⟩ :=
  ⟨by simp [Pipe.count, pipealloc], by simp [Pipe.contents, Pipe.count, pipealloc]⟩

theorem PipeOk.write {s : PipeSys} (h : PipeOk s) (killed : Bool) (src : UserMem) (addr : Nat) (n : Int)
    (i : Nat) : PipeOk (pipeStep s (.write killed src addr n i)) := by
  rcases hr : pipewrite killed src addr n s.pipe i with ⟨pi', i', st⟩
  obtain ⟨hc, -, -, -, hcont⟩ := pipewriteLoop_spec hr h.count_le
  simp only [pipeStep, hr]
  refine ⟨hc, ?_⟩
  rw [hcont, ← List.append_assoc, h.fifo]

theorem PipeOk.read {s : PipeSys} (h : PipeOk s) (killed : Bool) (dst : UserMem) (addr : Nat) (n : Int) :
    PipeOk (pipeStep s (.read killed dst addr n)) := by
  simp only [pipeStep, piperead]
  split
  · -- asleep, or killed while the pipe is empty: nothing is taken
    refine ⟨h.count_le, ?_⟩
    simp [h.fifo]
  · rcases hr : pipereadLoop addr n.toNat s.pipe dst 0 with ⟨pi', m', i'⟩
    obtain ⟨-, -, -, -, hle, hq⟩ := pipereadLoop_spec hr
    refine ⟨Nat.le_trans hle h.count_le, ?_⟩
    rw [List.append_assoc, ← hq, h.fifo]

theorem PipeOk.close {s : PipeSys} (h : PipeOk s) (writable : Bool) :
    PipeOk (pipeStep s (.close writable)) := by
  simp only [pipeStep, pipeclose]
  split
  · exact ⟨h.count_le, h.fifo⟩
  · exact ⟨h.count_le, h.fifo⟩

theorem PipeOk.step {s : PipeSys} (h : PipeOk s) : ∀ op, PipeOk (pipeStep s op)
  | .write killed src addr n i => h.write killed src addr n i
  | .read killed dst addr n => h.read killed dst addr n
  | .close writable => h.close writable

theorem PipeReachable.pipeOk {page : Fin PIPESIZE → UInt8} {s : PipeSys} (h : PipeReachable page s) :
    PipeOk s :=
  LTS.Reachable.inv (pipeOk_init page) (fun _ op _ hs e => Option.some.inj e ▸ hs.step op) h

/-- Whatever the interleaving of calls, `0 ≤ nwrite - nread ≤ PIPESIZE` as a `uint`
difference. -/
theorem pipe_count_le {page : Fin PIPESIZE → UInt8} {s : PipeSys} (h : PipeReachable page s) :
    (s.pipe.nwrite - s.pipe.nread).toNat ≤ PIPESIZE :=
  h.pipeOk.count_le

/-- Whatever the interleaving of calls, the bytes taken out of the pipe are the bytes put in,
in order, less those still in it. -/
theorem pipe_fifo {page : Fin PIPESIZE → UInt8} {s : PipeSys} (h : PipeReachable page s) :
    s.consumed ++ s.pipe.contents = s.appended :=
  h.pipeOk.fifo

/-! ### A read into a buffer that ends in an unmapped page -/

/-- A source buffer holding `"ab"` from address `0`. -/
def srcAB : UserMem := ⟨fun _ => true, fun a => if a = 0 then 97 else 98⟩

/-- A source buffer holding `"c"` from address `0`. -/
def srcC : UserMem := ⟨fun _ => true, fun _ => 99⟩

/-- A destination buffer at `0` whose first byte is mapped and second is not. -/
def dstEdge : UserMem := ⟨fun a => a == 0, fun _ => 0⟩

/-- A destination buffer mapped everywhere. -/
def dstAll : UserMem := ⟨fun _ => true, fun _ => 0⟩

/-- `write(p[1], "ab", 2)`; `read(p[0], buf, 2)` into `dstEdge`; `write(p[1], "c", 1)`;
`read(p[0], buf, 2)`.  The writes return `2` and `1`, accepting `"ab"` and `"c"`; the reads
return `1` and `1`, delivering `"a"` and `"c"`.  The first read took `b` out of the pipe before
its `copyout` failed, so `"ac"` is not a prefix of `"abc"`. -/
theorem piperead_fault_loses_byte :
    ∃ p1 p2 p3 p4 m2 m4,
      pipewrite false srcAB 0 2 (pipealloc fun _ => 0) 0 = (p1, 2, .ret 2) ∧
      piperead false dstEdge 0 2 p1 = (p2, m2, .ret 1) ∧
      pipewrite false srcC 0 1 p2 0 = (p3, 1, .ret 1) ∧
      piperead false dstAll 0 2 p3 = (p4, m4, .ret 1) ∧
      m2.read 0 1 ++ m4.read 0 1 = [97, 99] ∧ srcAB.read 0 2 ++ srcC.read 0 1 = [97, 98, 99] ∧
      ¬ (m2.read 0 1 ++ m4.read 0 1 <+: srcAB.read 0 2 ++ srcC.read 0 1) :=
  ⟨_, _, _, _, _, _, rfl, rfl, rfl, rfl, by decide, by decide, by decide⟩

end Xv6Sched
