import Mathlib.Data.Prod.Lex
import Mathlib.Data.List.Sort
import Xv6Sched.Proc.Machine
import Xv6Sched.Lib.Spin

/-!
# Xv6Sched.Proc.SchedLocks — the proc locks of the FCFS and PBS scans of `scheduler()`

Both scans `acquire` the lock of every slot, keep the lock of the candidate they have found so
far, `release` the candidate's lock when a better process displaces it, and release every other
slot's lock (`pbsLockStep`, `fcfsLockStep`, with the locks the CPU holds as in `Xv6Sched.Lib.Spin`).

PBS: `PcbCompare(best, p) > 0` just when `p` comes strictly first in the lexicographic order of
`(PSBPriority, Times_scheduled, start_time)` (`pcbCompare_pos_iff`), so the scan is the running
minimum of `Xv6Sched.Lib.Scan`: it switches to the first RUNNABLE slot of least key, holding its
lock and no other (`pbs_scheduler_first_least`).

FCFS: `First_start` is an `int` holding a `uint` `start_time` and doubling as the flag "nothing
found yet", `-1`.  A RUNNABLE process with `start_time == 0xFFFFFFFF` stores `-1`: the next
RUNNABLE process is then taken as the first without the lock of the one before being released,
and when no other follows, the pass ends with a lock held and switches to nothing, so the next
pass's `acquire` panics (`fcfs_sentinel_leaks_lock`).
-/

namespace Xv6Sched

open Kernel

/-! ### PBS -/

/-- The order `PcbCompare` ranks by, the smaller first: `PSBPriority`, then `Times_scheduled`,
an `int`, then `start_time`, a `uint`. -/
def pbsKey (p : Proc) : Lex (Int × Lex (Int × Nat)) :=
  toLex ((psbPriority p).toInt, toLex (p.timesScheduled.toInt, p.startTime.toNat))

/-- `PcbCompare(p, q)` is positive just when `q` comes strictly before `p`; on a full tie it is
`-1`, so the candidate stays. -/
theorem pcbCompare_pos_iff (p q : Proc) : pcbCompare p q > 0 ↔ pbsKey q < pbsKey p := by
  have hn : ¬ ((-1 : Int32) > 0) := by decide
  have hp : (1 : Int32) > 0 := by decide
  unfold pcbCompare pbsKey
  simp only [Prod.Lex.toLex_lt_toLex]
  -- each of the seven returns against the lexicographic comparison, in `Int` and `Nat`
  split_ifs with h1 h2 h3 h4 h5 h6 <;>
    simp only [hn, hp, false_iff, true_iff] <;>
    simp only [Int32.lt_iff_toInt_lt, gt_iff_lt, UInt32.lt_iff_toNat_lt] at * <;>
    omega

/-- The scan of the PBS `scheduler()` is the running minimum of `pbsKey` over the RUNNABLE slots. -/
theorem pbsStep_eq_minStep (k : Kernel) :
    pbsStep k = Scan.minStep (isRunnable k) fun i => pbsKey (k.proc i) := by
  funext acc i
  unfold pbsStep Scan.minStep isRunnable
  by_cases hr : (k.proc i).state = .runnable
  · rw [if_pos hr, if_pos (decide_eq_true hr)]
    cases acc with
    | none => rfl
    | some j =>
      dsimp only
      by_cases hc : pbsKey (k.proc i) < pbsKey (k.proc j)
      · rw [if_pos ((pcbCompare_pos_iff _ _).mpr hc), if_pos hc]
      · rw [if_neg (fun h => hc ((pcbCompare_pos_iff _ _).mp h)), if_neg hc]
  · rw [if_neg hr, if_neg (by simpa using hr)]

theorem pbsPick_firstMin (k : Kernel) :
    Scan.FirstMin (isRunnable k) (fun i => pbsKey (k.proc i)) (List.finRange NPROC) (pbsPick k) := by
  unfold pbsPick
  rw [pbsStep_eq_minStep]
  exact Scan.firstMin_scan (List.sortedLT_finRange NPROC).pairwise

/-- One iteration of the PBS loop with the proc locks the CPU holds: `acquire` the slot's lock;
a RUNNABLE process is kept locked when it is the first, or when `PcbCompare` puts it before the
candidate, whose lock is released; the lock of every other slot is released. -/
def pbsLockStep (k : Kernel) (acc : Option (Fin NPROC) × (Fin NPROC → Bool)) (i : Fin NPROC) :
    Option (Option (Fin NPROC) × (Fin NPROC → Bool)) := do
  let held ← Spin.acquire acc.2 i
  if (k.proc i).state = .runnable then
    match acc.1 with
    | none => pure (some i, held)
    | some j =>
      if pcbCompare (k.proc j) (k.proc i) > 0 then
        let held ← Spin.release held j
        pure (some i, held)
      else
        let held ← Spin.release held i
        pure (some j, held)
  else
    let held ← Spin.release held i
    pure (acc.1, held)

/-- The scan of one pass of the PBS loop, from no proc lock held: what it found, and the locks
held when it ends. -/
def pbsLockScan (k : Kernel) : Option (Option (Fin NPROC) × (Fin NPROC → Bool)) :=
  (List.finRange NPROC).foldlM (pbsLockStep k) (none, fun _ => false)

/-- One iteration from the candidate's lock alone, over another slot, ends with the new
candidate's lock alone. -/
theorem pbsLockStep_only (k : Kernel) {acc : Option (Fin NPROC)} {i : Fin NPROC} (hi : acc ≠ some i) :
    pbsLockStep k (acc, Spin.only acc) i = some (pbsStep k acc i, Spin.only (pbsStep k acc i)) := by
  unfold pbsLockStep pbsStep
  dsimp only
  rw [Spin.acquire_only hi]
  simp only [bind, Option.bind_some]
  by_cases hr : (k.proc i).state = .runnable
  · rw [if_pos hr, if_pos hr]
    cases acc with
    | none =>
      -- the first RUNNABLE slot is kept locked
      rw [Spin.update_only_none]
      rfl
    | some j =>
      have hij : i ≠ j := fun e => hi (congrArg some e.symm)
      dsimp only
      split_ifs
      · rw [Spin.release_displaced hij]
        rfl
      · rw [Spin.release_taken hi]
        rfl
  · rw [if_neg hr, if_neg hr, Spin.release_taken hi]
    rfl

theorem pbsStep_cases (k : Kernel) (acc : Option (Fin NPROC)) (i : Fin NPROC) :
    pbsStep k acc i = acc ∨ pbsStep k acc i = some i := by
  unfold pbsStep
  split_ifs
  · cases acc with
    | none => exact .inr rfl
    | some j =>
      dsimp only
      split_ifs
      · exact .inr rfl
      · exact .inl rfl
  · exact .inl rfl

/-- The locked scan finds what `pbsPick` finds, and holds its lock and no other. -/
theorem pbsLockScan_eq (k : Kernel) : pbsLockScan k = some (pbsPick k, Spin.only (pbsPick k)) := by
  have h := Spin.foldlM_locked id (fun _ => True) (pbsStep k) (pbsLockStep k)
    (fun _ _ _ hi => ⟨pbsLockStep_only k hi, trivial⟩) (pbsStep_cases k)
    (List.nodup_finRange NPROC) trivial (s := none) (fun _ h => absurd h (by simp))
  dsimp only [id] at h
  rw [Spin.only_none] at h
  exact h

/-- Whatever the table holds, the PBS `scheduler()` switches to the first RUNNABLE slot that is
least in the order of `(PSBPriority, Times_scheduled, start_time)`, holding that process's lock
and no other; with nothing RUNNABLE it switches to nothing and holds no proc lock. -/
theorem pbs_scheduler_first_least (k : Kernel) (c : Fin NCPU) :
    ∃ r, pbsLockScan k = some (r, Spin.only r) ∧ schedule .PBS c k = r.map (fun i => dispatch .PBS c i k) ∧
      (r = none ↔ ∀ i, (k.proc i).state ≠ .runnable) ∧
      ∀ i, r = some i → (k.proc i).state = .runnable ∧
        (∀ j, (k.proc j).state = .runnable → pbsKey (k.proc i) ≤ pbsKey (k.proc j)) ∧
        ∀ j, j < i → (k.proc j).state = .runnable → pbsKey (k.proc i) < pbsKey (k.proc j) := by
  have hmin := pbsPick_firstMin k
  refine ⟨pbsPick k, pbsLockScan_eq k, rfl, ⟨fun h i hi => ?_, fun h => ?_⟩, fun i hi => ?_⟩
  · rw [h] at hmin
    have := hmin i (List.mem_finRange i)
    simp [isRunnable, hi] at this
  · cases hp : pbsPick k with
    | none => rfl
    | some i =>
      rw [hp] at hmin
      exact absurd (by simpa [isRunnable] using hmin.2.1) (h i)
  · rw [hi] at hmin
    obtain ⟨-, hr, hle, hlt⟩ := hmin
    refine ⟨by simpa [isRunnable] using hr, fun j hj => hle j (List.mem_finRange j) (by simpa [isRunnable] using hj),
      fun j hji hj => hlt j (List.mem_finRange j) hji (by simpa [isRunnable] using hj)⟩

/-! ### FCFS -/

/-- One iteration of the FCFS loop with the proc locks the CPU holds; the triple is
`(First_start, ToBeScheduled, held)`.  The `uint` `start_time` is stored in the `int`
`First_start` and compared with it as a `uint`. -/
def fcfsLockStep (k : Kernel) (acc : Int32 × Option (Fin NPROC) × (Fin NPROC → Bool)) (i : Fin NPROC) :
    Option (Int32 × Option (Fin NPROC) × (Fin NPROC → Bool)) := do
  let held ← Spin.acquire acc.2.2 i
  let p := k.proc i
  if p.state = .runnable then
    if acc.1 = -1 then pure (p.startTime.toInt32, some i, held)
    else if p.startTime < acc.1.toUInt32 then
      -- `release(&ToBeScheduled->lock)`: `First_start != -1` only once the pass has set it
      match acc.2.1 with
      | some j =>
        let held ← Spin.release held j
        pure (p.startTime.toInt32, some i, held)
      | none => none
    else
      let held ← Spin.release held i
      pure (acc.1, acc.2.1, held)
  else
    let held ← Spin.release held i
    pure (acc.1, acc.2.1, held)

/-- The scan of one pass of the FCFS loop, from the locks `held` the CPU holds as it starts. -/
def fcfsLockScan (k : Kernel) (held : Fin NPROC → Bool) :
    Option (Int32 × Option (Fin NPROC) × (Fin NPROC → Bool)) :=
  (List.finRange NPROC).foldlM (fcfsLockStep k) (-1, none, held)

/-- A table of the processes `ps` in the first slots, every other slot unused. -/
def procTable (ps : List Proc) : Kernel :=
  ⟨fun i => ps.getD i.val Proc.zero, fun _ => Cpu.idle, 0, ps.length + 1⟩

/-- A RUNNABLE process with pid `pid` started at tick `t`. -/
def runnableAt (pid : Int32) (t : UInt32) : Proc :=
  { Proc.zero with state := .runnable, pid := pid, startTime := t }

set_option maxRecDepth 4000 in
/-- With a process started at `0xFFFFFFFF` in slot 0 and one started at tick 5 in slot 1, the
FCFS scan ends holding both locks; with the first alone it ends holding its lock and switching
to nothing, and the next pass panics in `acquire`. -/
theorem fcfs_sentinel_leaks_lock :
    ((fcfsLockScan (procTable [runnableAt 1 0xFFFFFFFF, runnableAt 2 5]) (Spin.only none)).map
        fun r => (r.1, r.2.1, r.2.2 0, r.2.2 1)) = some (5, some 1, true, true) ∧
      fcfsPick (procTable [runnableAt 1 0xFFFFFFFF]) = none ∧
      ((fcfsLockScan (procTable [runnableAt 1 0xFFFFFFFF]) (Spin.only none)).map
        fun r => (r.1, r.2.2 0)) = some (-1, true) ∧
      ((fcfsLockScan (procTable [runnableAt 1 0xFFFFFFFF]) (Spin.only none)).bind
        fun r => fcfsLockScan (procTable [runnableAt 1 0xFFFFFFFF]) r.2.2) = none := by
  decide

end Xv6Sched
