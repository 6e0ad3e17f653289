import Xv6Sched.Proc.Ops

/-!
# Xv6Sched.Proc.Sched — the four `scheduler()` loops of `kernel/proc.c`

`schedule b c k`: one iteration of the scheduler loop of CPU `c` in build `b`, from choosing a
process to the `swtch` into it, or `none` when the iteration chooses nothing and the loop goes
round again.  The choices:

* DEFAULT: the next RUNNABLE slot from where the `for` loop stands (`defaultPick`);
* FCFS: the RUNNABLE slot of least `start_time`, tracked in the `int` `First_start` with `-1`
  for "none yet" (`fcfsPick`);
* PBS: the least RUNNABLE slot under `PcbCompare` (`pbsPick`);
* MLFQ: `UpgradePolicy`, then the head of the first non-empty queue among 0–3, where the head
  is the least `time_added` and `minimum_time == 0` stands for "empty so far"
  (`mlfqQueues`), else round robin from `rr_s` (`rrPick`).
-/

namespace Xv6Sched

open Kernel

/-- The test `p->state == RUNNABLE` of every scan. -/
def isRunnable (k : Kernel) (i : Fin NPROC) : Bool := decide ((k.proc i).state = .runnable)

/-! ### DEFAULT -/

/-- The slot the DEFAULT loop stops at, scanning from `pos` and wrapping around. -/
def defaultPick (k : Kernel) (pos : Nat) : Option (Fin NPROC) :=
  Scan.firstFrom pos (isRunnable k)

/-! ### FCFS -/

/-- One iteration of the FCFS scan; the pair is `(First_start, ToBeScheduled)`.  The test
`p->start_time < First_start` compares a `uint` with an `int`, so `First_start` is converted. -/
def fcfsStep (k : Kernel) (acc : Int32 × Option (Fin NPROC)) (i : Fin NPROC) :
    Int32 × Option (Fin NPROC) :=
  let p := k.proc i
  if p.state = .runnable then
    if acc.1 = -1 then (p.startTime.toInt32, some i)
    else if p.startTime < acc.1.toUInt32 then (p.startTime.toInt32, some i)
    else acc
  else acc

/-- The FCFS choice: nothing when `First_start == -1` after the scan. -/
def fcfsPick (k : Kernel) : Option (Fin NPROC) :=
  let r := (List.finRange NPROC).foldl (fcfsStep k) (-1, none)
  if r.1 = -1 then none else r.2

/-! ### PBS -/

/-- Signed division as the RISC-V `divw` the compiler emits for `/` on `int`: the quotient
rounded toward zero, and `-1` for a zero divisor (which C leaves undefined). -/
def divw (a b : Int32) : Int32 := if b = 0 then -1 else a / b

/-- `PSBPriority`: the dynamic priority from the niceness `sleeping*10/(running+sleeping)`,
`5` when both are `-1`, clamped to `[0, 100]`. -/
def psbPriority (p : Proc) : Int32 :=
  let niceness : Int32 :=
    if p.sleepingTime = -1 ∧ p.runningTime = -1 then 5
    else divw (p.sleepingTime * 10) (p.runningTime + p.sleepingTime)
  let value := p.staticPriority - niceness + 5
  if value > 100 then 100 else if value < 0 then 0 else value

/-- `PcbCompare(p, q)`: positive when `q` is to run before `p`. -/
def pcbCompare (p q : Proc) : Int32 :=
  let pp := psbPriority p
  let qp := psbPriority q
  if pp < qp then -1
  else if pp > qp then 1
  else if p.timesScheduled > q.timesScheduled then 1
  else if q.timesScheduled > p.timesScheduled then -1
  else if p.startTime < q.startTime then -1
  else if q.startTime < p.startTime then 1
  else -1

/-- One iteration of the PBS scan; `none` is `intialized == -1`. -/
def pbsStep (k : Kernel) (acc : Option (Fin NPROC)) (i : Fin NPROC) : Option (Fin NPROC) :=
  if (k.proc i).state = .runnable then
    match acc with
    | none => some i
    | some j => if pcbCompare (k.proc j) (k.proc i) > 0 then some i else acc
  else acc

def pbsPick (k : Kernel) : Option (Fin NPROC) := (List.finRange NPROC).foldl (pbsStep k) none

/-! ### MLFQ -/

/-- `static const int Max_wait[5]` of `UpgradePolicy`. -/
def maxWait : List Int32 := [0, 10, 30, 100, 150]

/-- `static const int NoTicks[5]` of `usertrap` and `kerneltrap`: the slice of each queue. -/
def noTicks : List Int32 := [1, 2, 4, 8, 16]

/-- `a[i]` for one of the two tables.  An index outside `[0, 5)` would read whatever lies next
to the array; it reads `0` here, and the MLFQ invariant shows it never happens. -/
def tableAt (a : List Int32) (i : Int32) : Int32 := if i < 0 then 0 else a.getD i.toNatClampNeg 0

/-- `UpgradePolicy()`: a RUNNABLE process outside queue 0 that has waited longer than
`Max_wait` of its queue moves up one queue, with `time_added = ticks`.  The test
`ticks - p->time_added > Max_wait[…]` is on `uint`. -/
def upgradePolicy (k : Kernel) : Kernel :=
  k.mapProc fun _ p =>
    if p.state = .runnable ∧ p.priorityNumber ≠ 0 then
      if k.uticks - p.timeAdded > (tableAt maxWait p.priorityNumber).toUInt32 then
        { p with timeAdded := k.uticks, priorityNumber := p.priorityNumber - 1 }
      else p
    else p

/-- One iteration of the scan of queue `q`; the pair is `(minimum_time, toSchedule)`. -/
def queueStep (q : Int32) (k : Kernel) (acc : UInt32 × Option (Fin NPROC)) (i : Fin NPROC) :
    UInt32 × Option (Fin NPROC) :=
  let p := k.proc i
  if p.state = .runnable ∧ p.priorityNumber = q then
    if acc.1 = 0 then (p.timeAdded, some i)
    else if p.timeAdded < acc.1 then (p.timeAdded, some i)
    else acc
  else acc

/-- The scan of queue `q`, from `minimum_time = 0`. -/
def queueScan (k : Kernel) (q : Int32) : UInt32 × Option (Fin NPROC) :=
  (List.finRange NPROC).foldl (queueStep q k) (0, none)

/-- `for(i = 0; i < 4; i++) { … if(minimum_time != 0) goto Schedu; }`. -/
def mlfqQueues (k : Kernel) : Option (Fin NPROC) :=
  ([0, 1, 2, 3] : List Int32).findSome? fun q =>
    let r := queueScan k q
    if r.1 ≠ 0 then r.2 else none

/-- The round robin from `rr_s`. -/
def rrPick (k : Kernel) (rr : Nat) : Option (Fin NPROC) := Scan.firstFrom rr (isRunnable k)

/-! ### One iteration of `scheduler()` -/

/-- The switch to `i` on CPU `c`, with the bookkeeping of the build. -/
def dispatch (b : Build) (c : Fin NCPU) (i : Fin NPROC) (k : Kernel) : Kernel :=
  let p := { k.proc i with state := .running }
  let p := match b with
    | .PBS =>
      { p with timesScheduled := p.timesScheduled + 1, sleepingTime := 0,
               runningTime := k.uticks.toInt32 }
    | .MLFQ => { p with timeAdded := 0, noTimes := p.noTimes + 1 }
    | _ => p
  (k.setProc i p).setCpu c { k.cpus c with proc := some i }

/-- One iteration of the scheduler loop of the idle CPU `c`.  DEFAULT resumes its `for` loop
after the chosen slot once the process gives the CPU back; MLFQ advances `rr_s` past a slot it
chooses by round robin, and when nothing at all is RUNNABLE it is caught in the round-robin
`while(1)` (`inRR`), which only a process becoming RUNNABLE ends. -/
def schedule (b : Build) (c : Fin NCPU) (k : Kernel) : Option Kernel :=
  let cpu := k.cpus c
  match b with
  | .DEFAULT =>
    (defaultPick k cpu.scan).map fun i => dispatch b c i (k.setCpu c { cpu with scan := i + 1 })
  | .FCFS => (fcfsPick k).map fun i => dispatch b c i k
  | .PBS => (pbsPick k).map fun i => dispatch b c i k
  | .MLFQ =>
    if cpu.inRR then
      (rrPick k cpu.rrS).map fun i =>
        dispatch b c i (k.setCpu c { cpu with rrS := (i + 1) % NPROC, inRR := false })
    else
      let k := upgradePolicy k
      match mlfqQueues k with
      | some i => some (dispatch b c i k)
      | none =>
        match rrPick k cpu.rrS with
        | some i => some (dispatch b c i (k.setCpu c { cpu with rrS := (i + 1) % NPROC }))
        | none => some (k.setCpu c { cpu with inRR := true })

end Xv6Sched
