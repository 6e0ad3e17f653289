import Xv6Sched.Proc.Spec
import Xv6Sched.Lib.Word

/-!
# Xv6Sched.Proc.Mlfq — the queue fields of the MLFQ build stay in range

Five paths change `priority_number` or `no_of_ticks`: `allocproc` resets both, the timer paths
of `usertrap`/`kerneltrap` count ticks and demote (guarded by `priority_number != 4`),
`UpgradePolicy` promotes (guarded by `priority_number != 0`), `wakeup` and the fork-time
preemption reset the count.  `SlotOk`: `priority_number ∈ [0, 4]` and `no_of_ticks ∈ [0, 15]`;
the upper bound on the count is what keeps `no_of_ticks++` from overflowing, since a count
reaches at most `NoTicks[q] ≤ 16` before it is reset.

**`mlfq_fields_in_range`**: in every state a kernel built with MLFQ reaches, on any number of
CPUs, every slot has `priority_number ∈ [0, 4]` and `no_of_ticks ≥ 0`, so the reads
`NoTicks[priority_number]` and `Max_wait[priority_number]` stay inside the arrays.
-/

namespace Xv6Sched

open Kernel

/-- The MLFQ fields of one slot are in range. -/
structure SlotOk (p : Proc) : Prop where
  pn_lo : 0 ≤ p.priorityNumber.toInt
  pn_hi : p.priorityNumber.toInt ≤ 4
  nt_lo : 0 ≤ p.noOfTicks.toInt
  nt_hi : p.noOfTicks.toInt ≤ 15

/-- Every slot is `SlotOk`. -/
def MlfqOk (k : Kernel) : Prop := ∀ i, SlotOk (k.proc i)

section Slot

variable {p q : Proc}

theorem SlotOk.congr (h : SlotOk p) (h1 : q.priorityNumber = p.priorityNumber)
    (h2 : q.noOfTicks = p.noOfTicks) : SlotOk q :=
  ⟨h1 ▸ h.pn_lo, h1 ▸ h.pn_hi, h2 ▸ h.nt_lo, h2 ▸ h.nt_hi⟩

/-- Resetting the tick count keeps a slot in range. -/
theorem SlotOk.reset (h : SlotOk p) (h1 : q.priorityNumber = p.priorityNumber)
    (h2 : q.noOfTicks = 0) : SlotOk q :=
  ⟨h1 ▸ h.pn_lo, h1 ▸ h.pn_hi, by simp [h2], by simp [h2]⟩

theorem slotOk_wakeOne (h : SlotOk p) (t : UInt32) : SlotOk (wakeOne .MLFQ t p) :=
  h.reset (wakeOne_priorityNumber p t) (wakeOne_noOfTicks_mlfq p t)

/-- A slot with both fields `0`, as `allocproc` leaves it. -/
theorem slotOk_of_zero (h1 : q.priorityNumber = 0) (h2 : q.noOfTicks = 0) : SlotOk q :=
  ⟨by simp [h1], by simp [h1], by simp [h2], by simp [h2]⟩

theorem slotOk_allocFields (t : UInt32) (p : Proc) : SlotOk (allocFields .MLFQ t p) :=
  slotOk_of_zero rfl rfl

theorem SlotOk.wakeIf (h : SlotOk p) (c : Prop) [Decidable c] (t : UInt32) :
    SlotOk (if c then wakeOne .MLFQ t p else p) := by
  split
  · exact slotOk_wakeOne h t
  · exact h

theorem slotOk_setParent (h : SlotOk p) (x : Option (Fin NPROC)) : SlotOk (p.setParent x) :=
  h.congr rfl rfl

end Slot

section Table

variable {k : Kernel}

theorem MlfqOk.setProc (hk : MlfqOk k) {i : Fin NPROC} {p : Proc} (hp : SlotOk p) :
    MlfqOk (k.setProc i p) := by
  intro j
  rw [setProc_apply]
  split
  · exact hp
  · exact hk j

/-- A slot update that keeps both queue fields. -/
theorem MlfqOk.update (hk : MlfqOk k) {i : Fin NPROC} {p : Proc}
    (h1 : p.priorityNumber = (k.proc i).priorityNumber) (h2 : p.noOfTicks = (k.proc i).noOfTicks) :
    MlfqOk (k.setProc i p) :=
  hk.setProc ((hk i).congr h1 h2)

theorem MlfqOk.setCpu (hk : MlfqOk k) (c : Fin NCPU) (x : Cpu) : MlfqOk (k.setCpu c x) := hk

theorem mlfqOk_wakeup (hk : MlfqOk k) (me : Option (Fin NPROC)) (ch : Chan) :
    MlfqOk (wakeup .MLFQ me ch k) := by
  intro j
  rw [wakeup_proc]
  split_ifs
  · exact hk j
  · exact slotOk_wakeOne (hk j) _
  · exact hk j

theorem mlfqOk_sleep (hk : MlfqOk k) (me : Fin NPROC) (ch : Chan) :
    MlfqOk (sleep .MLFQ me ch k) :=
  hk.update rfl rfl

theorem mlfqOk_yield (hk : MlfqOk k) (me : Fin NPROC) : MlfqOk (yield me k) :=
  hk.update rfl rfl

theorem mlfqOk_kill (hk : MlfqOk k) (pid : Int32) : MlfqOk (kill pid k).2 := by
  unfold kill
  split
  · exact hk
  · exact hk.update (by split <;> rfl) (by split <;> rfl)

theorem mlfqOk_reparent (hk : MlfqOk k) (p : Fin NPROC) : MlfqOk (reparent .MLFQ p k) := by
  intro j
  rw [reparent_proc, reparentSlot]
  have hq : SlotOk (if (k.proc j).parent = some p then (k.proc j).setParent (some initproc)
      else k.proc j) := by
    split
    · exact slotOk_setParent (hk j) _
    · exact hk j
  exact hq.wakeIf _ _

theorem mlfqOk_exit (hk : MlfqOk k) {p : Fin NPROC} {status : Int32} {k' : Kernel}
    (h : exit .MLFQ p status k = some k') : MlfqOk k' := by
  unfold exit at h
  split at h
  · cases h
  · simp only [Option.some.injEq] at h
    subst h
    exact (mlfqOk_wakeup (mlfqOk_reparent hk p) _ _).update rfl rfl

theorem mlfqOk_allocproc (hk : MlfqOk k) (mem : Bool) : MlfqOk (allocproc .MLFQ mem k).2 := by
  unfold allocproc
  split
  · exact hk
  · simp only [allocpid]
    split
    · exact hk.setProc (slotOk_allocFields _ _)
    · exact hk.update rfl rfl

theorem mlfqOk_fork (hk : MlfqOk k) (p : Fin NPROC) (mem copy : Bool) :
    MlfqOk (fork .MLFQ p mem copy k).2 := by
  unfold fork
  have ha := mlfqOk_allocproc hk mem
  rcases hal : allocproc .MLFQ mem k with ⟨_ | np, k1⟩
  · simpa [hal] using ha
  · rw [hal] at ha
    dsimp only
    split
    · exact ha.update rfl rfl
    · -- the child gets `Trace`, `parent` and RUNNABLE; none of them is a queue field
      set k2 := k1.setProc np { k1.proc np with trace := (k1.proc p).trace }
      have h2 : MlfqOk k2 := ha.update rfl rfl
      set k3 := k2.setProc np { k2.proc np with parent := some p }
      have h3 : MlfqOk k3 := h2.update rfl rfl
      set k4 := k3.setProc np { k3.proc np with state := .runnable }
      have h4 : MlfqOk k4 := h3.update rfl rfl
      split
      · refine mlfqOk_yield (h4.setProc ?_) p
        exact (h4 p).reset rfl rfl
      · exact h4

theorem mlfqOk_wait (hk : MlfqOk k) (p : Fin NPROC) (addr : UInt64) (copyOk : Bool) :
    MlfqOk (wait .MLFQ p addr copyOk k).2 := by
  unfold wait
  split
  · split
    · exact hk
    · exact hk.update rfl rfl
  · split
    · exact hk
    · exact mlfqOk_sleep hk p _

theorem mlfqOk_waitx (hk : MlfqOk k) (p : Fin NPROC) (addr : UInt64) (copyOk : Bool) :
    MlfqOk (waitx .MLFQ p addr copyOk k).2.2 := by
  unfold waitx
  split
  · split
    · exact hk
    · exact hk.update rfl rfl
  · split
    · exact hk
    · exact mlfqOk_sleep hk p _

theorem mlfqOk_updateTime (hk : MlfqOk k) : MlfqOk (updateTime k) := by
  intro j
  simp only [updateTime, mapProc_proc]
  split
  · exact (hk j).congr rfl rfl
  · exact hk j

theorem mlfqOk_clockintr (hk : MlfqOk k) (me : Option (Fin NPROC)) :
    MlfqOk (clockintr .MLFQ me k) := by
  have h1 : MlfqOk { k with ticks := k.ticks + 1 } := hk
  exact mlfqOk_wakeup (mlfqOk_updateTime h1) me .ticks

end Table

/-! ### The scheduler and the timer path -/

section Sched

variable {k k' : Kernel}

/-- Promotion: `priority_number - 1` from a queue other than 0. -/
theorem SlotOk.promote {p : Proc} (h : SlotOk p) (h0 : p.priorityNumber ≠ 0) (t : UInt32) :
    SlotOk { p with timeAdded := t, priorityNumber := p.priorityNumber - 1 } := by
  have h0' : p.priorityNumber.toInt ≠ 0 := Int32.ne_def'.mp h0
  have e : (p.priorityNumber - 1).toInt = p.priorityNumber.toInt - 1 :=
    Int32.toInt_sub_of_range (by simp; have := h.pn_lo; omega) (by simp; have := h.pn_hi; omega)
  exact ⟨by simp only [e]; have := h.pn_lo; omega, by simp only [e]; have := h.pn_hi; omega,
    h.nt_lo, h.nt_hi⟩

theorem mlfqOk_upgradePolicy (hk : MlfqOk k) : MlfqOk (upgradePolicy k) := by
  intro j
  simp only [upgradePolicy, mapProc_proc]
  split
  · rename_i hr
    split
    · exact (hk j).promote hr.2 _
    · exact hk j
  · exact hk j

theorem mlfqOk_dispatch (hk : MlfqOk k) (c : Fin NCPU) (i : Fin NPROC) :
    MlfqOk (dispatch .MLFQ c i k) := by
  unfold dispatch
  apply MlfqOk.setCpu
  exact hk.update rfl rfl

theorem mlfqOk_schedule (hk : MlfqOk k) {c : Fin NCPU} (h : schedule .MLFQ c k = some k') :
    MlfqOk k' := by
  unfold schedule at h
  dsimp only at h
  split at h
  · obtain ⟨i, -, rfl⟩ := Option.map_eq_some_iff.mp h
    exact mlfqOk_dispatch (hk.setCpu _ _) c i
  · have hu := mlfqOk_upgradePolicy hk
    split at h
    · cases h; exact mlfqOk_dispatch hu c _
    · split at h <;> cases h
      · exact mlfqOk_dispatch (hu.setCpu _ _) c _
      · exact hu.setCpu _ _

/-- The slice of every queue is at most 16 ticks, and the read of `NoTicks` outside the table
is `0`. -/
theorem tableAt_noTicks_le (i : Int32) : (tableAt noTicks i).toInt ≤ 16 := by
  unfold tableAt
  split
  · decide
  · generalize i.toNatClampNeg = n
    match n with
    | 0 | 1 | 2 | 3 | 4 => decide
    | n + 5 => simp [noTicks]

/-- One tick more, then either a demotion with the count reset, or a count still below the
slice. -/
theorem mlfqOk_timerTail (hk : MlfqOk k) (p : Fin NPROC) : MlfqOk (timerTail .MLFQ p k) := by
  have hp := hk p
  -- `no_of_ticks ≤ 15`, so `no_of_ticks + 1` does not wrap
  have e : ((k.proc p).noOfTicks + 1).toInt = (k.proc p).noOfTicks.toInt + 1 :=
    Int32.toInt_add_of_range (by simp; have := hp.nt_lo; omega) (by simp; have := hp.nt_hi; omega)
  unfold timerTail
  dsimp only
  split
  · -- the slice is used up: `no_of_ticks = 0`, one queue down unless in queue 4
    refine mlfqOk_yield (hk.setProc ?_) p
    split
    · rename_i h4
      have h4' : (k.proc p).priorityNumber.toInt ≠ 4 := Int32.ne_def'.mp h4
      have e4 : ((k.proc p).priorityNumber + 1).toInt = (k.proc p).priorityNumber.toInt + 1 :=
        Int32.toInt_add_of_range (by simp; have := hp.pn_lo; omega)
          (by simp; have := hp.pn_hi; omega)
      exact ⟨by simp only [e4]; have := hp.pn_lo; omega, by simp only [e4]; have := hp.pn_hi; omega,
        by simp, by simp⟩
    · exact hp.reset rfl rfl
  · rename_i hlt
    have hlt' : (k.proc p).noOfTicks.toInt + 1 < (tableAt noTicks (k.proc p).priorityNumber).toInt :=
      by rw [← e]; exact Int.not_le.mp (fun h => hlt (Int32.le_def'.mpr h))
    have h16 := tableAt_noTicks_le (k.proc p).priorityNumber
    exact hk.setProc ⟨hp.pn_lo, hp.pn_hi, by simp only [e]; have := hp.nt_lo; omega,
      by simp only [e]; omega⟩

end Sched


/-! ### Steps and runs -/

section Machine

variable {k k' : Kernel}

theorem mlfqOk_killedCheck (hk : MlfqOk k) {p : Fin NPROC}
    (h : killedCheck .MLFQ p k = some k') : MlfqOk k' := by
  unfold killedCheck at h
  split at h
  · exact mlfqOk_exit hk h
  · cases h; exact hk

theorem mlfqOk_doCall (hk : MlfqOk k) {p : Fin NPROC} {call : Call}
    (h : doCall .MLFQ p call k = some k') : MlfqOk k' := by
  cases call <;> simp only [doCall, Option.some.injEq] at h
  case exit => exact mlfqOk_exit hk h
  all_goals subst h
  · exact mlfqOk_fork hk p _ _
  · exact mlfqOk_wait hk p _ _
  · exact mlfqOk_waitx hk p _ _
  · exact mlfqOk_kill hk _
  · exact mlfqOk_sleep hk p _
  · exact mlfqOk_wakeup hk _ _
  · exact hk
  · exact hk

theorem mlfqOk_release (hk : MlfqOk k) (c : Fin NCPU) (p : Fin NPROC) : MlfqOk (release c p k) := by
  unfold release
  split
  · exact hk
  · exact hk.setCpu _ _

/-- The trap-return check `if(killed) exit(-1)` of a trap from user mode. -/
theorem mlfqOk_userCheck (hk : MlfqOk k) {p : Fin NPROC} {user : Bool}
    (h : (if user then killedCheck .MLFQ p k else some k) = some k') : MlfqOk k' := by
  split at h
  · exact mlfqOk_killedCheck hk h
  · cases h; exact hk

theorem mlfqOk_procStep (hk : MlfqOk k) {c : Fin NCPU} {p : Fin NPROC} {l : Label}
    (h : procStep .MLFQ c p l k = some k') : MlfqOk k' := by
  cases l <;> simp only [procStep] at h
  case timer user =>
    have h1 : MlfqOk (if c = cpu0 then clockintr .MLFQ (some p) k else k) := by
      split
      · exact mlfqOk_clockintr hk _
      · exact hk
    obtain ⟨k2, h2, rfl⟩ := Option.map_eq_some_iff.mp h
    obtain ⟨k3, h3, rfl⟩ := Option.map_eq_some_iff.mp h2
    have hk3 := mlfqOk_userCheck h1 h3
    refine mlfqOk_release ?_ c p
    split
    · exact mlfqOk_timerTail hk3 p
    · exact hk3
  case intr ch user =>
    obtain ⟨k2, h2, rfl⟩ := Option.map_eq_some_iff.mp h
    exact mlfqOk_release (mlfqOk_userCheck (mlfqOk_wakeup hk _ _) h2) c p
  case fault =>
    obtain ⟨k2, h2, rfl⟩ := Option.map_eq_some_iff.mp h
    have h1 : MlfqOk (k.setProc p { k.proc p with killed := 1 }) := hk.update rfl rfl
    exact mlfqOk_release (mlfqOk_exit h1 h2) c p
  case syscall call =>
    obtain ⟨k2, h2, rfl⟩ := Option.map_eq_some_iff.mp h
    refine mlfqOk_release ?_ c p
    split at h2
    · exact mlfqOk_exit hk h2
    · obtain ⟨k3, h3, h4⟩ := Option.bind_eq_some_iff.mp h2
      exact mlfqOk_killedCheck (mlfqOk_doCall hk h3) h4
  case resume call =>
    obtain ⟨k2, h2, rfl⟩ := Option.map_eq_some_iff.mp h
    obtain ⟨k3, h3, h4⟩ := Option.bind_eq_some_iff.mp h2
    have h1 : MlfqOk (k.setProc p { k.proc p with chan := .null }) := hk.update rfl rfl
    exact mlfqOk_release (mlfqOk_killedCheck (mlfqOk_doCall h1 h3) h4) c p
  all_goals cases h

theorem mlfqOk_spinTo (hk : MlfqOk k) {c : Fin NCPU} {r : Nat} (h : spinTo .MLFQ c r k = some k') :
    MlfqOk k' := by
  simp only [spinTo] at h
  split at h
  · cases h; exact hk.setCpu _ _
  · cases h

/-- **Step lemma**: every step of the MLFQ kernel keeps the queue fields in range. -/
theorem mlfqOk_next (hk : MlfqOk k) {ncpu : Nat} {l : Label} (h : next .MLFQ ncpu k l = some k') :
    MlfqOk k' := by
  simp only [next] at h
  by_cases hc : l.cpu.val < ncpu
  swap
  · rw [if_neg hc] at h; cases h
  rw [if_pos hc] at h
  -- an idle CPU runs its scheduler or takes an interrupt; a busy one steps its process
  rcases hp : (k.cpus l.cpu).proc with _ | p <;> rw [hp] at h
  · cases l <;> simp only [Option.some.injEq] at h
    case schedule => exact mlfqOk_schedule hk h
    case spin =>
      split at h
      · exact mlfqOk_spinTo hk h
      · cases h
    case timer =>
      subst h
      split
      · exact mlfqOk_clockintr hk _
      · exact hk
    case intr => subst h; exact mlfqOk_wakeup hk _ _
    all_goals cases h
  · exact mlfqOk_procStep hk h

theorem mlfqOk_boot : MlfqOk (boot .MLFQ) := by
  have h0 : MlfqOk ⟨fun _ => Proc.zero, fun _ => Cpu.idle, 0, 1⟩ := fun _ => slotOk_of_zero rfl rfl
  have ha := mlfqOk_allocproc h0 true
  unfold boot
  dsimp only
  split
  · rename_i i k1 hal
    rw [hal] at ha
    exact ha.update rfl rfl
  · rename_i k1 hal
    rw [hal] at ha
    exact ha

/-- **Run lemma**: every reachable state of the MLFQ kernel is `MlfqOk`. -/
theorem Reachable.mlfqOk {ncpu : Nat} (h : Reachable .MLFQ ncpu k) : MlfqOk k :=
  LTS.Reachable.inv mlfqOk_boot (fun _ _ _ hk hs => mlfqOk_next hk hs) h

theorem mlfq_fields_in_range {ncpu : Nat} (h : Reachable .MLFQ ncpu k) (i : Fin NPROC) :
    0 ≤ (k.proc i).priorityNumber ∧ (k.proc i).priorityNumber ≤ 4 ∧ 0 ≤ (k.proc i).noOfTicks ∧
      (k.proc i).priorityNumber.toNatClampNeg < noTicks.length ∧
      (k.proc i).priorityNumber.toNatClampNeg < maxWait.length := by
  have hi := h.mlfqOk i
  have hn : (k.proc i).priorityNumber.toNatClampNeg < 5 := by
    rw [← Int32.toNat_toInt]; have := hi.pn_hi; omega
  exact ⟨Int32.le_def'.mpr hi.pn_lo, Int32.le_def'.mpr hi.pn_hi, Int32.le_def'.mpr hi.nt_lo, hn, hn⟩

set_option maxRecDepth 4000 in
/-- `initproc` forks and waits; the child runs one tick and moves down to queue `1`. -/
theorem mlfq_fields_in_range_demoted :
    ∃ k, Reachable .MLFQ 1 k ∧ (k.proc 1).priorityNumber = 1 ∧
      0 ≤ (k.proc 1).priorityNumber ∧ (k.proc 1).priorityNumber ≤ 4 ∧ 0 ≤ (k.proc 1).noOfTicks ∧
      (k.proc 1).priorityNumber.toNatClampNeg < noTicks.length ∧
      (k.proc 1).priorityNumber.toNatClampNeg < maxWait.length := by
  obtain ⟨k, hr, h1⟩ : ∃ k, Reachable .MLFQ 1 k ∧ (k.proc 1).priorityNumber = 1 :=
    LTS.exists_reachable_of_run [.schedule cpu0, .syscall cpu0 (.fork true true), .syscall cpu0 (.wait 0 true),
      .schedule cpu0, .timer cpu0 true] (by decide)
  exact ⟨k, hr, h1, mlfq_fields_in_range hr 1⟩

end Machine

end Xv6Sched
