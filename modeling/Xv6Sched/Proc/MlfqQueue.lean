import Xv6Sched.Proc.Mlfq

/-!
# Xv6Sched.Proc.MlfqQueue — which process the MLFQ scheduler picks

The scan of queue `i` keeps the least `time_added` seen so far in `minimum_time`, and reads
`minimum_time == 0` both as "no process of this queue seen yet" and, after the scan, as "the
queue is empty".  But `0` is a value `time_added` really takes: `allocproc` at tick 0 stores it,
and `scheduler()` stores it in every process it switches to, which the fork-time `yield()` and
`kill()` of a sleeper leave in place.  A RUNNABLE process with `time_added == 0` resets the scan,
and when it is the last one of its queue the queue is passed over.
-/

namespace Xv6Sched

open Kernel

/-- One CPU: `initproc` runs, forks two children at tick 0 and waits for them; the first child
runs until the timer interrupt of tick 1 ends its slice and moves it to queue 1. -/
def mlfqTwoChildren : List Label :=
  [.schedule cpu0, .syscall cpu0 (.fork true true), .syscall cpu0 (.fork true true),
   .syscall cpu0 (.wait 0 true), .schedule cpu0, .timer cpu0 true]

/-- After `mlfqTwoChildren` the second child (slot 2) waits in queue 0 with `time_added == 0`
and the first (slot 1) in queue 1; the next iteration of `scheduler()` switches to slot 1. -/
theorem mlfq_scheduler_passes_over_queue0 :
    ∃ k, Reachable .MLFQ 1 k ∧ (k.cpus cpu0).proc = none ∧
      (k.proc 2).state = .runnable ∧ (k.proc 2).priorityNumber = 0 ∧ (k.proc 2).timeAdded = 0 ∧
      (k.proc 1).state = .runnable ∧ (k.proc 1).priorityNumber = 1 ∧
      ((next .MLFQ 1 k (.schedule cpu0)).map fun k' =>
        ((k'.cpus cpu0).proc, (k'.proc 1).priorityNumber, (k'.proc 2).state,
          (k'.proc 2).priorityNumber)) = some (some 1, 1, .runnable, 0) :=
  LTS.exists_reachable_of_run mlfqTwoChildren (by decide)

/-- The process in slot 1, scheduled from queue 1, forks at tick 1: it yields to the child with
`no_of_ticks = 0` but with the `time_added = 0` that `scheduler()` gave it, not the tick at which
it became RUNNABLE again. -/
theorem mlfq_fork_yield_keeps_time_added_zero :
    ∃ k, Reachable .MLFQ 1 k ∧ (k.cpus cpu0).proc = some 1 ∧ (k.proc 1).priorityNumber = 1 ∧
      k.ticks = 1 ∧
      ((next .MLFQ 1 k (.syscall cpu0 (.fork true true))).map fun k' =>
        ((k'.cpus cpu0).proc, (k'.proc 1).state, (k'.proc 1).priorityNumber,
          (k'.proc 1).noOfTicks, (k'.proc 1).timeAdded)) =
        some (none, .runnable, 1, 0, 0) :=
  LTS.exists_reachable_of_run (mlfqTwoChildren ++ [.schedule cpu0]) (by decide)

end Xv6Sched
