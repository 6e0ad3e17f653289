import Xv6Sched.Proc.Sched
import Xv6Sched.Lib.Lts

/-!
# Xv6Sched.Proc.Machine — the kernel as a transition system (`kernel/trap.c`, `main.c`)

A step is one thing a CPU `c < ncpu` does: an iteration of its scheduler loop, a timer or
device interrupt, a fault, or a system call of the process it runs (`Label`).  A system call
is one step; one that sleeps stops at `sched()` and its continuation, once the process runs
again, is a `resume` step.  A process that leaves RUNNING (through `yield`, `sleep` or `exit`,
which all end in `sched()`) gives its CPU back to the scheduler (`release`).

The system calls are those that touch the process table (`Call`); `sleep ch` and `wakeup ch`
stand for any call that blocks on, or wakes the sleepers of, the channel `ch` (`sys_sleep` on
`&ticks`, a pipe, the log, a buffer).

`boot b`: the state `main()` leaves before the schedulers start — the zeroed table after
`userinit`, with `initproc` RUNNABLE in slot 0.  `Reachable b ncpu`: every state a kernel built
with `b` reaches on `ncpu` CPUs.
-/

namespace Xv6Sched

open Kernel

/-- A system call, as far as the process table is concerned. -/
inductive Call where
  | fork (mem copy : Bool)
  | exit (status : Int32)
  | wait (addr : UInt64) (copyOk : Bool)
  | waitx (addr : UInt64) (copyOk : Bool)
  | kill (pid : Int32)
  | sleep (ch : Chan)
  | wakeup (ch : Chan)
  | setPriority (priority pid : Int32)
  | other
  deriving DecidableEq, Repr

/-- What a CPU does in one step. -/
inductive Label where
  /-- One iteration of `scheduler()` on an idle CPU. -/
  | schedule (c : Fin NCPU)
  /-- An idle scheduler loop that finds nothing RUNNABLE moves on to slot `r`. -/
  | spin (c : Fin NCPU) (r : Nat)
  /-- A timer interrupt, taken in user mode (`usertrap`) or kernel mode (`kerneltrap`). -/
  | timer (c : Fin NCPU) (user : Bool)
  /-- A device interrupt whose handler wakes the sleepers of `ch`. -/
  | intr (c : Fin NCPU) (ch : Chan) (user : Bool)
  /-- An exception in user mode (`usertrap`'s unexpected `scause`). -/
  | fault (c : Fin NCPU)
  /-- A system call from user mode. -/
  | syscall (c : Fin NCPU) (call : Call)
  /-- The continuation of a system call that slept or yielded. -/
  | resume (c : Fin NCPU) (call : Call)
  deriving DecidableEq, Repr

section Machine

variable (b : Build)

/-- The system call `call` made by `p`. -/
def doCall (p : Fin NPROC) : Call → Kernel → Option Kernel
  | .fork mem copy, k => some (fork b p mem copy k).2
  | .exit status, k => exit b p status k
  | .wait addr copyOk, k => some (wait b p addr copyOk k).2
  | .waitx addr copyOk, k => some (waitx b p addr copyOk k).2.2
  | .kill pid, k => some (kill pid k).2
  | .sleep ch, k => some (sleep b p ch k)
  | .wakeup ch, k => some (wakeup b (some p) ch k)
  | .setPriority priority pid, k => some (setPriorityI b p priority pid k).2
  | .other, k => some k

/-- `if(p->killed) exit(-1);` of `usertrap`, for a process that is still running. -/
def killedCheck (p : Fin NPROC) (k : Kernel) : Option Kernel :=
  if (k.proc p).state = .running ∧ (k.proc p).killed ≠ 0 then exit b p (-1) k else some k

/-- The end of `usertrap` and `kerneltrap` for a timer interrupt (`which_dev == 2`) taken by
the running process `p`. -/
def timerTail (p : Fin NPROC) (k : Kernel) : Kernel :=
  match b with
  | .DEFAULT => yield p k
  | .FCFS => k
  | .PBS => k
  | .MLFQ =>
    let q := { k.proc p with noOfTicks := (k.proc p).noOfTicks + 1 }
    if q.noOfTicks ≥ tableAt noTicks q.priorityNumber then
      let q := { q with noOfTicks := 0 }
      let q : Proc := if q.priorityNumber ≠ 4 then { q with priorityNumber := q.priorityNumber + 1 }
        else q
      yield p (k.setProc p { q with timeAdded := k.uticks })
    else k.setProc p q

/-- CPU `c` goes back to its scheduler when its process has left RUNNING. -/
def release (c : Fin NCPU) (p : Fin NPROC) (k : Kernel) : Kernel :=
  if (k.proc p).state = .running then k else k.setCpu c { k.cpus c with proc := none }

/-- An idle scheduler loop on `c` with nothing RUNNABLE stands at slot `r`. -/
def spinTo (c : Fin NCPU) (r : Nat) (k : Kernel) : Option Kernel :=
  match b with
  | .DEFAULT => some (k.setCpu c { k.cpus c with scan := r % NPROC })
  | .MLFQ =>
    if (k.cpus c).inRR then some (k.setCpu c { k.cpus c with rrS := r % NPROC }) else none
  | _ => none

/-- No process is RUNNABLE. -/
def noneRunnable (k : Kernel) : Bool := (Scan.firstFin (isRunnable k)).isNone

/-- One step of CPU `c`, the process it runs being `p`. -/
def procStep (c : Fin NCPU) (p : Fin NPROC) : Label → Kernel → Option Kernel
  | .timer _ user, k =>
    let k := if c = cpu0 then clockintr b (some p) k else k
    ((if user then killedCheck b p k else some k).map fun k =>
      if (k.proc p).state = .running then timerTail b p k else k).map (release c p)
  | .intr _ ch user, k =>
    let k := wakeup b (some p) ch k
    (if user then killedCheck b p k else some k).map (release c p)
  | .fault _, k =>
    (exit b p (-1) (k.setProc p { k.proc p with killed := 1 })).map (release c p)
  | .syscall _ call, k =>
    (if (k.proc p).killed ≠ 0 then exit b p (-1) k
     else (doCall b p call k).bind (killedCheck b p)).map (release c p)
  | .resume _ call, k =>
    ((doCall b p call (k.setProc p { k.proc p with chan := .null })).bind
      (killedCheck b p)).map (release c p)
  | _, _ => none

/-- The CPU a label belongs to. -/
def Label.cpu : Label → Fin NCPU
  | .schedule c => c
  | .spin c _ => c
  | .timer c _ => c
  | .intr c _ _ => c
  | .fault c => c
  | .syscall c _ => c
  | .resume c _ => c

/-- One step of the kernel built with `b` on `ncpu` CPUs. -/
def next (ncpu : Nat) (k : Kernel) (l : Label) : Option Kernel :=
  let c := l.cpu
  if c.val < ncpu then
    match (k.cpus c).proc, l with
    | none, .schedule _ => schedule b c k
    | none, .spin _ r => if noneRunnable k then spinTo b c r k else none
    | none, .timer _ _ => some (if c = cpu0 then clockintr b none k else k)
    | none, .intr _ ch _ => some (wakeup b none ch k)
    | none, _ => none
    | some p, l => procStep b c p l k
  else none

/-- `main()` up to the schedulers: the zeroed table, then `userinit`. -/
def boot : Kernel :=
  let k : Kernel := ⟨fun _ => Proc.zero, fun _ => Cpu.idle, 0, 1⟩
  match allocproc b true k with
  | (some i, k) => k.setProc i { k.proc i with state := .runnable }
  | (none, k) => k

/-- The states a kernel built with `b` reaches on `ncpu` CPUs. -/
def Reachable (ncpu : Nat) : Kernel → Prop := LTS.Reachable (next b ncpu) (boot b)

end Machine

end Xv6Sched
