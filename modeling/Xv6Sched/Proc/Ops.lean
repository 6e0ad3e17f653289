import Xv6Sched.Proc.Defs

/-!
# Xv6Sched.Proc.Ops — the process operations of `kernel/proc.c`

One definition per C function, over `Kernel`, for the build `b`; `#ifdef` blocks are `match b`.
A function that runs up to `sched()` (`sleep`, `yield`, `exit`) stops there: the caller gives
the CPU back (`Xv6Sched.Proc.Machine`).  Locks are not modelled: every function here runs as
one step, which is what holding `p->lock` and `wait_lock` gives on the slots it touches.

Outcomes the code gets from elsewhere are arguments: `mem` (the `kalloc` of the trapframe and
`proc_pagetable` in `allocproc` succeed), `copy` (`uvmcopy` in `fork` succeeds), `copyOk`
(the `copyout` of the exit status in `wait` succeeds).
-/

namespace Xv6Sched

open Kernel

section Ops

variable (b : Build)

/-- `allocpid`. -/
def allocpid (k : Kernel) : Int32 × Kernel :=
  (k.nextpid.toInt32, { k with nextpid := k.nextpid + 1 })

/-- `freeproc`, on the fields it clears; `rtime`, `ctime`, `etime`, `Trace` and the scheduler
fields stay. -/
def freeproc (p : Proc) : Proc :=
  { p with pid := 0, parent := none, chan := .null, killed := 0, xstate := 0, state := .unused }

/-- The fields `allocproc` sets once the trapframe and the page table are allocated. -/
def allocFields (t : UInt32) (p : Proc) : Proc :=
  let p := { p with rtime := 0, etime := 0, ctime := t }
  match b with
  | .DEFAULT => p
  | .FCFS => { p with startTime := t }
  | .PBS =>
    { p with staticPriority := 60, timesScheduled := 0, startTime := t, runningTime := -1,
             sleepingTime := -1 }
  | .MLFQ => { p with priorityNumber := 0, timeAdded := t, noOfTicks := 0, noTimes := 0 }

/-- `allocproc`: the first UNUSED slot gets the next pid and state USED.  When an allocation
fails (`mem = false`) `freeproc` gives the slot back, with `Trace` cleared and the pid spent. -/
def allocproc (mem : Bool) (k : Kernel) : Option (Fin NPROC) × Kernel :=
  match Scan.firstFin fun i => decide ((k.proc i).state = .unused) with
  | none => (none, k)
  | some i =>
    let (pid, k) := allocpid k
    let p := { k.proc i with pid := pid, state := .used, trace := 0 }
    if mem then (some i, k.setProc i (allocFields b k.uticks p))
    else (none, k.setProc i (freeproc p))

/-- What `wakeup` does to a process it wakes. -/
def wakeOne (t : UInt32) (p : Proc) : Proc :=
  let p := { p with state := .runnable }
  match b with
  | .PBS => { p with sleepingTime := (t - p.sleepingTime.toUInt32).toInt32 }
  | .MLFQ => { p with timeAdded := t, noOfTicks := 0 }
  | _ => p

/-- `wakeup(chan)`, called by `me` (`myproc()`, which it skips).  Each iteration of its loop
touches only its own slot. -/
def wakeup (me : Option (Fin NPROC)) (ch : Chan) (k : Kernel) : Kernel :=
  k.mapProc fun i p =>
    if me = some i then p
    else if p.state = .sleeping ∧ p.chan = ch then wakeOne b k.uticks p else p

/-- `sleep(chan, lk)` by `me`, up to `sched()`. -/
def sleep (me : Fin NPROC) (ch : Chan) (k : Kernel) : Kernel :=
  let p := { k.proc me with chan := ch, state := .sleeping }
  let p := match b with
    | .PBS =>
      { p with runningTime := (k.uticks - p.runningTime.toUInt32).toInt32,
               sleepingTime := k.uticks.toInt32 }
    | _ => p
  k.setProc me p

/-- `yield()` by `me`, up to `sched()`. -/
def yield (me : Fin NPROC) (k : Kernel) : Kernel :=
  k.setProc me { k.proc me with state := .runnable }

/-- `kill(pid)`: the first slot whose `pid` matches, whatever its state. -/
def kill (pid : Int32) (k : Kernel) : Int32 × Kernel :=
  match Scan.firstFin fun i => decide ((k.proc i).pid = pid) with
  | none => (-1, k)
  | some i =>
    let p := { k.proc i with killed := 1 }
    let p := if p.state = .sleeping then { p with state := .runnable } else p
    (0, k.setProc i p)

/-- One iteration of `reparent(p)`'s loop over `pp`. -/
def reparentStep (p : Fin NPROC) (k : Kernel) (pp : Fin NPROC) : Kernel :=
  if (k.proc pp).parent = some p then
    wakeup b (some p) (.proc initproc) (k.setProc pp { k.proc pp with parent := some initproc })
  else k

/-- `reparent(p)`: pass `p`'s children to `initproc`, waking it for each. -/
def reparent (p : Fin NPROC) (k : Kernel) : Kernel :=
  (List.finRange NPROC).foldl (reparentStep b p) k

/-- `exit(status)` by `p`, up to `sched()`; `none` is the panic `init exiting`. -/
def exit (p : Fin NPROC) (status : Int32) (k : Kernel) : Option Kernel :=
  if p = initproc then none
  else
    let k := reparent b p k
    let k := wakeup b (some p) (chanOf (k.proc p).parent) k
    some (k.setProc p { k.proc p with xstate := status, state := .zombie, etime := k.uticks })

/-- How one pass of the `wait`/`waitx` loop ends: a return value, or `sleep(p, &wait_lock)`. -/
inductive WaitOut where
  | ret (r : Int32)
  | sleep
  deriving DecidableEq, Repr

/-- The first ZOMBIE child of `p`: the slot where the scan of `wait` stops. -/
def zombieChild (p : Fin NPROC) (k : Kernel) : Option (Fin NPROC) :=
  Scan.firstFin fun np => decide ((k.proc np).parent = some p ∧ (k.proc np).state = .zombie)

/-- `havekids` at the end of a scan that found no ZOMBIE child. -/
def havekids (p : Fin NPROC) (k : Kernel) : Bool :=
  (Scan.firstFin fun np => decide ((k.proc np).parent = some p)).isSome

/-- One pass of the loop of `wait(addr)` by `p`. -/
def wait (p : Fin NPROC) (addr : UInt64) (copyOk : Bool) (k : Kernel) : WaitOut × Kernel :=
  match zombieChild p k with
  | some np =>
    if addr ≠ 0 ∧ copyOk = false then (.ret (-1), k)
    else (.ret (k.proc np).pid, k.setProc np (freeproc (k.proc np)))
  | none =>
    if havekids p k = false ∨ (k.proc p).killed ≠ 0 then (.ret (-1), k)
    else (.sleep, sleep b p (.proc p) k)

/-- One pass of the loop of `waitx(addr, rtime, wtime)` by `p`; the pair is what it stores
through its parameters `rtime` and `wtime`, in that order, before the `copyout`. -/
def waitx (p : Fin NPROC) (addr : UInt64) (copyOk : Bool) (k : Kernel) :
    WaitOut × Option (UInt32 × UInt32) × Kernel :=
  match zombieChild p k with
  | some np =>
    let c := k.proc np
    let outs := (c.rtime, c.etime - c.ctime - c.rtime)
    if addr ≠ 0 ∧ copyOk = false then (.ret (-1), some outs, k)
    else (.ret c.pid, some outs, k.setProc np (freeproc c))
  | none =>
    if havekids p k = false ∨ (k.proc p).killed ≠ 0 then (.ret (-1), none, k)
    else (.sleep, none, sleep b p (.proc p) k)

/-- `sys_waitx` by `p`: `waitx(addr, &wtime, &rtime)`, then `copyout` of `wtime` to the second
user pointer `addr1` and of `rtime` to the third, `addr2` (`ok1`, `ok2`: those succeed).  The
result is the return value and the words stored in user memory, in order; `none` while it
sleeps.  `w0`, `r0` are what the uninitialised locals hold. -/
def sysWaitx (p : Fin NPROC) (addr addr1 addr2 : UInt64) (copyOk ok1 ok2 : Bool) (w0 r0 : UInt32)
    (k : Kernel) : Option (Int32 × List (UInt64 × UInt32)) × Kernel :=
  match waitx b p addr copyOk k with
  | (.sleep, _, k') => (none, k')
  | (.ret r, outs, k') =>
    -- `&wtime` is passed for the parameter `rtime`, `&rtime` for `wtime`
    let wtime := (outs.map Prod.fst).getD w0
    let rtime := (outs.map Prod.snd).getD r0
    if ok1 = false then (some (-1, []), k')
    else if ok2 = false then (some (-1, [(addr1, wtime)]), k')
    else (some (r, [(addr1, wtime), (addr2, rtime)]), k')

/-- `fork()` by `p`: the child's pid, or `-1`.  In the MLFQ build a parent outside queue 0
then yields to the child. -/
def fork (p : Fin NPROC) (mem copy : Bool) (k : Kernel) : Int32 × Kernel :=
  match allocproc b mem k with
  | (none, k) => (-1, k)
  | (some np, k) =>
    if copy = false then (-1, k.setProc np (freeproc (k.proc np)))
    else
      let k := k.setProc np { k.proc np with trace := (k.proc p).trace }
      let pid := (k.proc np).pid
      let k := k.setProc np { k.proc np with parent := some p }
      let k := k.setProc np { k.proc np with state := .runnable }
      match b with
      | .MLFQ =>
        if (k.proc p).priorityNumber ≠ 0 then
          (pid, yield p (k.setProc p { k.proc p with noOfTicks := 0 }))
        else (pid, k)
      | _ => (pid, k)

/-- `set_priority_i(priority, pid)` called by `me`. -/
def setPriorityI (me : Fin NPROC) (priority pid : Int32) (k : Kernel) : Int32 × Kernel :=
  match b with
  | .PBS =>
    if priority < 0 ∨ priority > 100 then (1, k)
    else
      match Scan.firstFin fun i => decide (((k.proc i).state = .runnable ∨
          (k.proc i).state = .sleeping) ∧ (k.proc i).pid = pid) with
      | none => (2, k)
      | some i =>
        -- `Ppid = pid_process->pid`, tested against its initial `-1`
        if (k.proc i).pid = -1 then (2, k)
        else
          let old := (k.proc i).staticPriority
          let q := { k.proc i with staticPriority := priority, runningTime := -1 }
          let k := k.setProc i { q with sleepingTime := -1 }
          (old, if priority > old then yield me k else k)
  | _ => (10, k)

/-- `update_time()`: one more tick of `rtime` for every RUNNING process. -/
def updateTime (k : Kernel) : Kernel :=
  k.mapProc fun _ p => if p.state = .running then { p with rtime := p.rtime + 1 } else p

/-- `clockintr()`, on CPU 0 whose process is `me`. -/
def clockintr (me : Option (Fin NPROC)) (k : Kernel) : Kernel :=
  wakeup b me .ticks (updateTime { k with ticks := k.ticks + 1 })

end Ops

end Xv6Sched
