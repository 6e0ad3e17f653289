import Mathlib
import Xv6Sched.Lib.Scan

/-!
# Xv6Sched.Proc.Defs — `struct proc`, the CPUs and the kernel state (`kernel/proc.h`)

The kernel is built with one scheduler, chosen by `-D $(SCHEDULER)` in the Makefile
(`Build`).  `Proc` carries the fields of all four builds; the code of a build reads and writes
only its own.  C `int` fields are `Int32`, `uint` fields `UInt32`, so the conversions and
wrap-arounds of the source are those of the model.

Two counters of the kernel are kept unbounded: `ticks` counts clock interrupts since boot and
`nextpid` the pids handed out (plus one).  The code reads their 32-bit images `uticks` and
`nextpid.toInt32`, which are exactly the values of the kernel's `uint ticks` and
`int nextpid`; the unbounded counts let a result say "ticks has not wrapped".

Fields that no modelled function reads are left out: `trapframe`, `pagetable`, `sz`,
`context`, `kstack`, `ofile`, `cwd`, `name` (the memory of a process is modelled on its own
in `Xv6Sched.Vm`).
-/

namespace Xv6Sched

/-- `NPROC`: maximum number of processes. -/
def NPROC : Nat := 64

/-- `NCPU`: maximum number of CPUs. -/
def NCPU : Nat := 8

instance : NeZero NPROC := ⟨by decide⟩

instance : NeZero NCPU := ⟨by decide⟩

/-- The scheduler the kernel is built with (`-D $(SCHEDULER)`). -/
inductive Build where
  | DEFAULT
  | FCFS
  | PBS
  | MLFQ
  deriving DecidableEq, Repr

/-- `enum procstate`. -/
inductive ProcState where
  | unused
  | used
  | sleeping
  | runnable
  | running
  | zombie
  deriving DecidableEq, Repr

/-- The address a process sleeps on (`void *chan`): `0`, a process slot (`wait` sleeps on the
caller, `exit` wakes its parent), `&ticks` (`sys_sleep`), or another kernel object (a pipe, a
buffer, the log, the console). -/
inductive Chan where
  | null
  | proc (i : Fin NPROC)
  | ticks
  | obj (a : Nat)
  deriving DecidableEq, Repr

/-- `struct proc`, less the fields no modelled function reads. -/
structure Proc where
  state : ProcState
  chan : Chan
  killed : Int32
  xstate : Int32
  pid : Int32
  /-- `struct proc *parent`, `0` as `none`. -/
  parent : Option (Fin NPROC)
  trace : Int32
  rtime : UInt32
  ctime : UInt32
  etime : UInt32
  /-- `start_time` of the FCFS and PBS builds. -/
  startTime : UInt32
  staticPriority : Int32
  timesScheduled : Int32
  runningTime : Int32
  sleepingTime : Int32
  priorityNumber : Int32
  timeAdded : UInt32
  noOfTicks : Int32
  noTimes : Int32
  deriving DecidableEq, Repr

/-- A slot of the zero-initialised `struct proc proc[NPROC]`. -/
def Proc.zero : Proc where
  state := .unused
  chan := .null
  killed := 0
  xstate := 0
  pid := 0
  parent := none
  trace := 0
  rtime := 0
  ctime := 0
  etime := 0
  startTime := 0
  staticPriority := 0
  timesScheduled := 0
  runningTime := 0
  sleepingTime := 0
  priorityNumber := 0
  timeAdded := 0
  noOfTicks := 0
  noTimes := 0

/-- `struct cpu` and the locals of its `scheduler()` loop, which never returns. -/
structure Cpu where
  /-- `c->proc`. -/
  proc : Option (Fin NPROC)
  /-- DEFAULT: the slot the scheduler's `for` loop looks at next. -/
  scan : Nat
  /-- MLFQ: `rr_s`. -/
  rrS : Nat
  /-- MLFQ: the round-robin `while(1)` was entered with nothing RUNNABLE and spins. -/
  inRR : Bool
  deriving DecidableEq, Repr

def Cpu.idle : Cpu := ⟨none, 0, 0, false⟩

/-- The kernel state the process code works on. -/
structure Kernel where
  proc : Fin NPROC → Proc
  cpus : Fin NCPU → Cpu
  /-- Clock interrupts since boot; the kernel's `uint ticks` is `uticks`. -/
  ticks : Nat
  /-- The kernel's `int nextpid` is `nextpid.toInt32`. -/
  nextpid : Nat

namespace Kernel

/-- The value of the kernel's `uint ticks`. -/
def uticks (k : Kernel) : UInt32 := k.ticks.toUInt32

/-- Store slot `i`. -/
def setProc (k : Kernel) (i : Fin NPROC) (p : Proc) : Kernel :=
  { k with proc := Function.update k.proc i p }

/-- Store CPU `c`. -/
def setCpu (k : Kernel) (c : Fin NCPU) (x : Cpu) : Kernel :=
  { k with cpus := Function.update k.cpus c x }

/-- A loop over `proc[]` whose iterations each touch only their own slot. -/
def mapProc (k : Kernel) (f : Fin NPROC → Proc → Proc) : Kernel :=
  { k with proc := fun i => f i (k.proc i) }

variable (k : Kernel) (i j : Fin NPROC) (p : Proc) (c d : Fin NCPU) (x : Cpu)
  (f : Fin NPROC → Proc → Proc)

@[simp] theorem setProc_same : (k.setProc i p).proc i = p := Function.update_self ..

@[simp] theorem setProc_ne (h : j ≠ i) : (k.setProc i p).proc j = k.proc j :=
  Function.update_of_ne h ..

theorem setProc_apply : (k.setProc i p).proc j = if j = i then p else k.proc j := by
  by_cases h : j = i
  · subst h; simp
  · simp [h]

/-- The later of two stores to one slot wins. -/
@[simp] theorem setProc_setProc (q : Proc) : (k.setProc i p).setProc i q = k.setProc i q := by
  simp [setProc]

@[simp] theorem setProc_cpus : (k.setProc i p).cpus = k.cpus := rfl
@[simp] theorem setProc_ticks : (k.setProc i p).ticks = k.ticks := rfl
@[simp] theorem setProc_nextpid : (k.setProc i p).nextpid = k.nextpid := rfl
@[simp] theorem setProc_uticks : (k.setProc i p).uticks = k.uticks := rfl

@[simp] theorem setCpu_same : (k.setCpu c x).cpus c = x := Function.update_self ..

@[simp] theorem setCpu_ne (h : d ≠ c) : (k.setCpu c x).cpus d = k.cpus d :=
  Function.update_of_ne h ..

@[simp] theorem setCpu_proc : (k.setCpu c x).proc = k.proc := rfl
@[simp] theorem setCpu_ticks : (k.setCpu c x).ticks = k.ticks := rfl
@[simp] theorem setCpu_nextpid : (k.setCpu c x).nextpid = k.nextpid := rfl
@[simp] theorem setCpu_uticks : (k.setCpu c x).uticks = k.uticks := rfl

@[simp] theorem mapProc_proc : (k.mapProc f).proc i = f i (k.proc i) := rfl
@[simp] theorem mapProc_cpus : (k.mapProc f).cpus = k.cpus := rfl
@[simp] theorem mapProc_ticks : (k.mapProc f).ticks = k.ticks := rfl
@[simp] theorem mapProc_nextpid : (k.mapProc f).nextpid = k.nextpid := rfl
@[simp] theorem mapProc_uticks : (k.mapProc f).uticks = k.uticks := rfl

end Kernel

/-- `initproc`: `userinit` takes the first slot of the zeroed table. -/
def initproc : Fin NPROC := ⟨0, by decide⟩

/-- The CPU `cpuid() == 0` that runs `clockintr`. -/
def cpu0 : Fin NCPU := ⟨0, by decide⟩

/-- The channel `wakeup(p)` and `sleep(p, …)` use for a `struct proc *` (`0` for `none`). -/
def chanOf : Option (Fin NPROC) → Chan
  | none => .null
  | some i => .proc i

end Xv6Sched
