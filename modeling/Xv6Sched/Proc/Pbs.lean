import Xv6Sched.Proc.Spec
import Xv6Sched.Lib.Word

/-!
# Xv6Sched.Proc.Pbs — the dynamic priority of the PBS build

`PSBPriority` divides `sleeping_time * 10` by `running_time + sleeping_time`.  The two fields are
stamps or durations depending on which of `scheduler()`, `sleep`, `wakeup`, `kill` and
`set_priority` wrote them last.  `divw_niceness_mem`: when both are non-negative durations with a
positive sum, and `sleeping_time * 10` fits in an `int`, the niceness is in `[0, 10]`.
`pbs_woken_same_tick_zero_times`: a process that sleeps and is woken within the tick in which it was
scheduled has both fields `0`, and the scheduler then divides by zero.
`set_priority_yields_on_lowering`: `set_priority` yields when the new static priority is the
larger, that is when the process was made less important.
-/

namespace Xv6Sched

open Kernel

/-- The clamp of `PSBPriority` to `[0, 100]`. -/
theorem clamp_mem (v : Int32) :
    0 ≤ (if v > 100 then 100 else if v < 0 then 0 else v).toInt ∧
      (if v > 100 then 100 else if v < 0 then 0 else v).toInt ≤ 100 := by
  split_ifs with h1 h2
  · decide
  · decide
  · have h1' : v.toInt ≤ 100 := Int.not_lt.mp fun h => h1 (Int32.lt_def'.mpr h)
    have h2' : 0 ≤ v.toInt := Int.not_lt.mp fun h => h2 (Int32.lt_def'.mpr h)
    exact ⟨h2', h1'⟩

/-- The dynamic priority is in `[0, 100]` whatever the fields hold. -/
theorem psbPriority_mem (p : Proc) : 0 ≤ (psbPriority p).toInt ∧ (psbPriority p).toInt ≤ 100 :=
  clamp_mem _

/-- The niceness `sleeping_time * 10 / (running_time + sleeping_time)` of two non-negative
durations with a positive sum lies in `[0, 10]` when the product does not overflow. -/
theorem divw_niceness_mem {rt st : Int32} (hr : 0 ≤ rt.toInt) (hs : 0 ≤ st.toInt)
    (hpos : 0 < rt.toInt + st.toInt) (hsum : rt.toInt + st.toInt < 2 ^ 31)
    (hov : st.toInt * 10 < 2 ^ 31) :
    0 ≤ (divw (st * 10) (rt + st)).toInt ∧ (divw (st * 10) (rt + st)).toInt ≤ 10 := by
  have e10 : (10 : Int32).toInt = 10 := by decide
  have em : (st * 10).toInt = st.toInt * 10 := by
    rw [Int32.toInt_mul_of_range (by rw [e10]; omega) (by rw [e10]; omega), e10]
  have ea : (rt + st).toInt = rt.toInt + st.toInt := Int32.toInt_add_of_range (by omega) hsum
  have hne : rt + st ≠ 0 := fun h => by
    have := congrArg Int32.toInt h
    rw [ea] at this
    simp at this
    omega
  -- the quotient rounds toward zero, which for a non-negative dividend is `Int.ediv`
  have eq : (divw (st * 10) (rt + st)).toInt = st.toInt * 10 / (rt.toInt + st.toInt) := by
    rw [divw, if_neg hne, Int32.toInt_div_of_ne_right _ _ (fun h => by
      have := congrArg Int32.toInt h
      rw [ea] at this
      simp at this
      omega), em, ea, Int.tdiv_eq_ediv_of_nonneg (by omega)]
  rw [eq]
  refine ⟨Int.ediv_nonneg (by omega) (by omega), ?_⟩
  calc st.toInt * 10 / (rt.toInt + st.toInt)
      ≤ (rt.toInt + st.toInt) * 10 / (rt.toInt + st.toInt) := Int.ediv_le_ediv hpos (by omega)
    _ = 10 := Int.mul_ediv_cancel_left _ (by omega)

/-- One CPU, PBS build: `initproc` runs at tick 0, forks two children and waits; the first child
runs and exits, still at tick 0, which wakes `initproc`. -/
def pbsSameTickRun : List Label :=
  [.schedule cpu0, .syscall cpu0 (.fork true true), .syscall cpu0 (.fork true true),
   .syscall cpu0 (.wait 0 true), .schedule cpu0, .syscall cpu0 (.exit 0)]

set_option maxRecDepth 4000 in
/-- After `pbsSameTickRun` the CPU is idle and `initproc` (slot 0) and the second child (slot 2)
are RUNNABLE, `initproc` with `running_time = sleeping_time = 0`: the next scan of `scheduler()`
applies `PcbCompare` to both, and `PSBPriority` of slot 0 divides by `0 + 0`. -/
theorem pbs_woken_same_tick_zero_times :
    ∃ k, Reachable .PBS 1 k ∧ (k.cpus cpu0).proc = none ∧
      (k.proc 0).state = .runnable ∧ (k.proc 2).state = .runnable ∧
      (k.proc 0).runningTime = 0 ∧ (k.proc 0).sleepingTime = 0 :=
  LTS.exists_reachable_of_run pbsSameTickRun (by decide)

/-- One CPU, PBS build: `initproc` runs and forks a child, which gets slot 1, pid 2 and the
static priority 60 of `allocproc`. -/
def pbsForkRun : List Label := [.schedule cpu0, .syscall cpu0 (.fork true true)]

set_option maxRecDepth 4000 in
/-- `set_priority(50, 2)` raises the child's priority (a smaller value is more important) and
returns the old 60, but `initproc` keeps the CPU; `set_priority(70, 2)` lowers it and `initproc`
yields: the test `priority > old_priority` yields the other way round. -/
theorem set_priority_yields_on_lowering :
    ∃ k, Reachable .PBS 1 k ∧ (k.cpus cpu0).proc = some 0 ∧ (k.proc 1).pid = 2 ∧
      (k.proc 1).staticPriority = 60 ∧ (setPriorityI .PBS 0 50 2 k).1 = 60 ∧
      ((next .PBS 1 k (.syscall cpu0 (.setPriority 50 2))).map fun k' =>
        ((k'.proc 1).staticPriority, (k'.cpus cpu0).proc, (k'.proc 0).state)) =
        some (50, some 0, .running) ∧
      ((next .PBS 1 k (.syscall cpu0 (.setPriority 70 2))).map fun k' =>
        ((k'.proc 1).staticPriority, (k'.cpus cpu0).proc, (k'.proc 0).state)) =
        some (70, none, .runnable) :=
  LTS.exists_reachable_of_run pbsForkRun (by decide)

end Xv6Sched
