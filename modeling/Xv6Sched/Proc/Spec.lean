import Xv6Sched.Proc.Machine

/-!
# Xv6Sched.Proc.Spec — what each operation does to each slot

The field lemmas of the slot updates (`freeproc`, `allocFields`, `wakeOne`) and one
characterisation per operation that later proofs use instead of unfolding it.  The one with an
argument is `reparent_proc`: the loop of `reparent(p)` wakes `initproc` once per child, and its
result is the closed form `reparentSlot` — children moved to `initproc`, and the sleepers on
`initproc` woken once when there was a child.
-/

namespace Xv6Sched

open Kernel

variable {b : Build}

/-! ### Slot updates -/

section Slot

variable (p : Proc) (t : UInt32)

@[simp] theorem freeproc_state : (freeproc p).state = .unused := rfl
@[simp] theorem freeproc_pid : (freeproc p).pid = 0 := rfl
@[simp] theorem freeproc_parent : (freeproc p).parent = none := rfl
@[simp] theorem freeproc_killed : (freeproc p).killed = 0 := rfl
@[simp] theorem freeproc_priorityNumber : (freeproc p).priorityNumber = p.priorityNumber := rfl
@[simp] theorem freeproc_noOfTicks : (freeproc p).noOfTicks = p.noOfTicks := rfl
@[simp] theorem freeproc_rtime : (freeproc p).rtime = p.rtime := rfl
@[simp] theorem freeproc_ctime : (freeproc p).ctime = p.ctime := rfl
@[simp] theorem freeproc_etime : (freeproc p).etime = p.etime := rfl

@[simp] theorem allocFields_state : (allocFields b t p).state = p.state := by cases b <;> rfl
@[simp] theorem allocFields_pid : (allocFields b t p).pid = p.pid := by cases b <;> rfl
@[simp] theorem allocFields_parent : (allocFields b t p).parent = p.parent := by cases b <;> rfl
@[simp] theorem allocFields_killed : (allocFields b t p).killed = p.killed := by cases b <;> rfl
@[simp] theorem allocFields_rtime : (allocFields b t p).rtime = 0 := by cases b <;> rfl
@[simp] theorem allocFields_ctime : (allocFields b t p).ctime = t := by cases b <;> rfl
@[simp] theorem allocFields_etime : (allocFields b t p).etime = 0 := by cases b <;> rfl

@[simp] theorem wakeOne_state : (wakeOne b t p).state = .runnable := by cases b <;> rfl
@[simp] theorem wakeOne_pid : (wakeOne b t p).pid = p.pid := by cases b <;> rfl
@[simp] theorem wakeOne_parent : (wakeOne b t p).parent = p.parent := by cases b <;> rfl
@[simp] theorem wakeOne_chan : (wakeOne b t p).chan = p.chan := by cases b <;> rfl
@[simp] theorem wakeOne_killed : (wakeOne b t p).killed = p.killed := by cases b <;> rfl
@[simp] theorem wakeOne_rtime : (wakeOne b t p).rtime = p.rtime := by cases b <;> rfl
@[simp] theorem wakeOne_ctime : (wakeOne b t p).ctime = p.ctime := by cases b <;> rfl
@[simp] theorem wakeOne_etime : (wakeOne b t p).etime = p.etime := by cases b <;> rfl
@[simp] theorem wakeOne_priorityNumber : (wakeOne b t p).priorityNumber = p.priorityNumber := by
  cases b <;> rfl

theorem wakeOne_noOfTicks_mlfq : (wakeOne .MLFQ t p).noOfTicks = 0 := rfl

/-- `{ p with parent := x }`, kept folded so that `simp` leaves it alone. -/
def Proc.setParent (x : Option (Fin NPROC)) : Proc := { p with parent := x }

@[simp] theorem setParent_state (x) : (p.setParent x).state = p.state := rfl
@[simp] theorem setParent_chan (x) : (p.setParent x).chan = p.chan := rfl
@[simp] theorem setParent_parent (x) : (p.setParent x).parent = x := rfl

/-- Waking and moving to another parent commute. -/
theorem wakeOne_setParent (x : Option (Fin NPROC)) :
    wakeOne b t (p.setParent x) = (wakeOne b t p).setParent x := by
  cases b <;> rfl

end Slot

/-! ### Operations on the table -/

section Table

variable (k : Kernel)

@[simp] theorem wakeup_proc (me : Option (Fin NPROC)) (ch : Chan) (j : Fin NPROC) :
    (wakeup b me ch k).proc j =
      if me = some j then k.proc j
      else if (k.proc j).state = .sleeping ∧ (k.proc j).chan = ch then wakeOne b k.uticks (k.proc j)
      else k.proc j := rfl

@[simp] theorem wakeup_ticks (me : Option (Fin NPROC)) (ch : Chan) :
    (wakeup b me ch k).ticks = k.ticks := rfl

@[simp] theorem wakeup_nextpid (me : Option (Fin NPROC)) (ch : Chan) :
    (wakeup b me ch k).nextpid = k.nextpid := rfl

@[simp] theorem wakeup_cpus (me : Option (Fin NPROC)) (ch : Chan) :
    (wakeup b me ch k).cpus = k.cpus := rfl

@[simp] theorem wakeup_uticks (me : Option (Fin NPROC)) (ch : Chan) :
    (wakeup b me ch k).uticks = k.uticks := rfl

/-- Slot `j` after `reparent(p)`. -/
def reparentSlot (b : Build) (p : Fin NPROC) (k : Kernel) (j : Fin NPROC) : Proc :=
  let q := if (k.proc j).parent = some p then (k.proc j).setParent (some initproc) else k.proc j
  if havekids p k = true ∧ j ≠ p ∧ q.state = .sleeping ∧ q.chan = .proc initproc then
    wakeOne b k.uticks q
  else q

theorem reparentStep_eq (p : Fin NPROC) (pp : Fin NPROC) :
    reparentStep b p k pp = if (k.proc pp).parent = some p then
      wakeup b (some p) (.proc initproc) (k.setProc pp ((k.proc pp).setParent (some initproc)))
    else k := rfl

/-- `reparent`'s loop over the slots `l`, in closed form. -/
theorem foldl_reparentStep (p : Fin NPROC) :
    ∀ (l : List (Fin NPROC)), l.Nodup →
      (l.foldl (reparentStep b p) k).ticks = k.ticks ∧
      (l.foldl (reparentStep b p) k).nextpid = k.nextpid ∧
      (l.foldl (reparentStep b p) k).cpus = k.cpus ∧
      ∀ j, (l.foldl (reparentStep b p) k).proc j =
        let q := if j ∈ l ∧ (k.proc j).parent = some p then (k.proc j).setParent (some initproc)
          else k.proc j
        if (∃ x ∈ l, (k.proc x).parent = some p) ∧ j ≠ p ∧ q.state = .sleeping ∧
            q.chan = .proc initproc then wakeOne b k.uticks q
        else q := by
  intro l
  induction l using List.reverseRecOn with
  | nil => intro _; simp
  | append_singleton l x ih =>
    intro hnd
    have hx : x ∉ l := by
      rw [List.nodup_append] at hnd
      intro hm; exact hnd.2.2 x hm x (by simp) rfl
    obtain ⟨ht, hn, hc, hp⟩ := ih (List.nodup_append.mp hnd).1
    rw [List.foldl_append, List.foldl_cons, List.foldl_nil]
    set k1 := l.foldl (reparentStep b p) k
    -- the parent of `x` is still the original one: `x` is not in `l`
    have hpx : (k1.proc x).parent = (k.proc x).parent := by
      rw [hp x]; simp only [hx, false_and, if_false]; split_ifs <;> simp
    rw [reparentStep_eq]
    by_cases hcx : (k.proc x).parent = some p
    · rw [if_pos (hpx.trans hcx)]
      refine ⟨by simp [ht], by simp [hn], by simp [hc], fun j => ?_⟩
      have hex : ∃ y ∈ l ++ [x], (k.proc y).parent = some p := ⟨x, by simp, hcx⟩
      simp only [wakeup_proc, setProc_uticks, hex, true_and]
      have hu : k1.uticks = k.uticks := by simp [Kernel.uticks, ht]
      rw [hu]
      by_cases hjx : j = x
      · subst hjx
        rw [setProc_same]
        by_cases hjp : j = p
        · subst hjp
          rw [hp j]; simp [hx, hcx]
        · have hne : ¬ some p = some j := fun h => hjp (Option.some.inj h).symm
          by_cases hw : (∃ y ∈ l, (k.proc y).parent = some p) ∧
              (k.proc j).state = .sleeping ∧ (k.proc j).chan = .proc initproc
          · -- `j` was woken earlier in the loop; moving it now commutes with that
            have e1 : k1.proc j = wakeOne b k.uticks (k.proc j) := by
              rw [hp j]; simp [hx, hjp, hw.1, hw.2.1, hw.2.2]
            rw [e1]
            simp [hne, hjp, hcx, hw.2.1, hw.2.2, wakeOne_setParent]
          · have e1 : k1.proc j = k.proc j := by
              rw [hp j]; simp only [hx, false_and, if_false]
              rw [if_neg (fun h => hw ⟨h.1, h.2.2⟩)]
            rw [e1]
            simp only [hne, if_false, setParent_state, setParent_chan, hcx, List.mem_append,
              List.mem_singleton, or_true, true_and, if_true, ne_eq, hjp, not_false_eq_true]
            exact if_congr Iff.rfl rfl rfl
      · rw [setProc_ne _ _ _ _ hjx, hp j]
        simp only [List.mem_append, List.mem_singleton, hjx, or_false]
        by_cases hjp : j = p
        · subst hjp; simp
        · simp only [Option.some.injEq, Ne.symm hjp, if_false, ne_eq, hjp, not_false_eq_true,
            true_and]
          split_ifs <;> simp_all
    · rw [if_neg (by rw [hpx]; exact hcx)]
      refine ⟨ht, hn, hc, fun j => ?_⟩
      rw [hp j]
      have hex : (∃ y ∈ l ++ [x], (k.proc y).parent = some p) ↔
          ∃ y ∈ l, (k.proc y).parent = some p := by
        constructor
        · rintro ⟨y, hy, h⟩
          rcases List.mem_append.mp hy with hy | hy
          · exact ⟨y, hy, h⟩
          · simp only [List.mem_singleton] at hy; subst hy; exact absurd h hcx
        · rintro ⟨y, hy, h⟩; exact ⟨y, by simp [hy], h⟩
      have hmem : (j ∈ l ++ [x] ∧ (k.proc j).parent = some p) ↔
          (j ∈ l ∧ (k.proc j).parent = some p) := by
        constructor
        · rintro ⟨hj, h⟩
          rcases List.mem_append.mp hj with hj | hj
          · exact ⟨hj, h⟩
          · simp only [List.mem_singleton] at hj; subst hj; exact absurd h hcx
        · rintro ⟨hj, h⟩; exact ⟨by simp [hj], h⟩
      simp only [hex, hmem]

theorem havekids_iff (p : Fin NPROC) :
    havekids p k = true ↔ ∃ x, (k.proc x).parent = some p := by
  unfold havekids
  constructor
  · intro h
    obtain ⟨x, hx⟩ := Option.isSome_iff_exists.mp h
    exact ⟨x, by simpa using Scan.firstFin_spec hx⟩
  · rintro ⟨x, hx⟩
    obtain ⟨y, hy⟩ := @Scan.firstFin_isSome NPROC (fun np => decide ((k.proc np).parent = some p))
      x (by simpa using hx)
    rw [hy]; rfl

/-- **`reparent(p)` in closed form.** -/
theorem reparent_proc (p j : Fin NPROC) : (reparent b p k).proc j = reparentSlot b p k j := by
  obtain ⟨-, -, -, h⟩ := @foldl_reparentStep b k p (List.finRange NPROC)
    (List.nodup_finRange NPROC)
  rw [reparent, h j, reparentSlot]
  simp only [List.mem_finRange, true_and, havekids_iff]

@[simp] theorem reparent_ticks (p : Fin NPROC) : (reparent b p k).ticks = k.ticks :=
  (foldl_reparentStep k p _ (List.nodup_finRange NPROC)).1

@[simp] theorem reparent_nextpid (p : Fin NPROC) : (reparent b p k).nextpid = k.nextpid :=
  (foldl_reparentStep k p _ (List.nodup_finRange NPROC)).2.1

@[simp] theorem reparent_cpus (p : Fin NPROC) : (reparent b p k).cpus = k.cpus :=
  (foldl_reparentStep k p _ (List.nodup_finRange NPROC)).2.2.1

@[simp] theorem reparent_uticks (p : Fin NPROC) : (reparent b p k).uticks = k.uticks := by
  simp [Kernel.uticks]

/-- `kill(pid)` returns `0` exactly when some slot has that pid, in whatever state. -/
theorem kill_fst_eq_zero_iff (pid : Int32) : (kill pid k).1 = 0 ↔ ∃ i, (k.proc i).pid = pid := by
  unfold kill
  split
  · rename_i h
    have hno : ∀ i, (k.proc i).pid ≠ pid := fun i hi => by
      simpa [hi] using Scan.firstFin_eq_none.mp h i
    simp only [show (-1 : Int32) ≠ 0 by decide, false_iff, not_exists]
    exact hno
  · rename_i i h
    exact iff_of_true rfl ⟨i, by simpa using Scan.firstFin_spec h⟩

/-- What `sys_waitx` stores when `waitx` reaps the child `np`: `c->rtime` through the second user
pointer and the waiting time through the third. -/
theorem sysWaitx_of_zombieChild {p np : Fin NPROC} {addr addr1 addr2 : UInt64} {copyOk : Bool}
    (w0 r0 : UInt32) (h : zombieChild p k = some np) (hc : addr = 0 ∨ copyOk = true) :
    (sysWaitx b p addr addr1 addr2 copyOk true true w0 r0 k).1 =
      some ((k.proc np).pid, [(addr1, (k.proc np).rtime),
        (addr2, (k.proc np).etime - (k.proc np).ctime - (k.proc np).rtime)]) := by
  have hw : ¬ (addr ≠ 0 ∧ copyOk = false) := by
    rintro ⟨h1, h2⟩
    rcases hc with h3 | h3
    · exact h1 h3
    · rw [h2] at h3; cases h3
  simp only [sysWaitx, waitx, h, hw, if_false]
  rfl

end Table

/-! ### Two runs -/

set_option maxRecDepth 4000 in
/-- One CPU, DEFAULT build: `initproc` runs and calls `kill(0)`. -/
theorem kill_zero_marks_free_slot :
    ∃ k, Reachable .DEFAULT 1 k ∧ (k.cpus cpu0).proc = some initproc ∧
      (∀ i, (k.proc i).state ≠ .unused → (k.proc i).pid ≠ 0) ∧ (kill 0 k).1 = 0 ∧
      ((kill 0 k).2.proc 1).state = .unused ∧ ((kill 0 k).2.proc 1).killed = 1 ∧
      (((next .DEFAULT 1 k (.syscall cpu0 (.kill 0))).bind fun k1 =>
        next .DEFAULT 1 k1 (.syscall cpu0 (.fork true true))).map fun k2 =>
          ((k2.proc 1).state, (k2.proc 1).parent, (k2.proc 1).killed)) =
        some (.runnable, some initproc, 1) :=
  LTS.exists_reachable_of_run [.schedule cpu0] (by decide)

/-- One CPU, DEFAULT build: `initproc` forks a child at tick 0; the two share the CPU for three
ticks, the child running one of them, and the child exits at tick 3. -/
def waitxRun : List Label :=
  [.schedule cpu0, .syscall cpu0 (.fork true true), .timer cpu0 true, .schedule cpu0,
   .timer cpu0 true, .schedule cpu0, .timer cpu0 true, .schedule cpu0, .syscall cpu0 (.exit 0),
   .schedule cpu0]

set_option maxRecDepth 4000 in
/-- After `waitxRun`, `initproc` runs and its child is ZOMBIE with `rtime = 1` and a waiting time
of 2 ticks; `sys_waitx` stores the `1` through the second pointer and the `2` through the third. -/
theorem sys_waitx_stores_rtime_through_wtime :
    ∃ k, Reachable .DEFAULT 1 k ∧ (k.cpus cpu0).proc = some initproc ∧
      (k.proc 1).state = .zombie ∧ (k.proc 1).parent = some initproc ∧
      (k.proc 1).rtime = 1 ∧ (k.proc 1).etime - (k.proc 1).ctime - (k.proc 1).rtime = 2 ∧
      (sysWaitx .DEFAULT initproc 0 4096 4100 true true true 0 0 k).1 =
        some (2, [(4096, 1), (4100, 2)]) :=
  LTS.exists_reachable_of_run waitxRun (by decide)

end Xv6Sched
