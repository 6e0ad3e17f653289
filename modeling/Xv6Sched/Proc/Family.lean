import Xv6Sched.Proc.Frame

/-!
# Xv6Sched.Proc.Family — parents, pids, and what `wait` returns

Two invariants over every run, on any number of CPUs and for every build:

* `CpuOk`: the process a CPU runs is RUNNING, and no process is on two CPUs.  It is what makes
  a system call's caller a live process.
* `TableOk`: pids of used slots are distinct and below `nextpid`; every used slot but
  `initproc` has a parent that is neither UNUSED nor ZOMBIE; UNUSED slots have no parent.
  `exit` hands the children to `initproc` before the caller becomes ZOMBIE, and `wait` frees only
  a ZOMBIE, which nobody has as parent.  The pids are `nextpid` as an `int`, so this holds while
  fewer than `2^31` pids have been handed out.

**`family_and_wait`**: in every reachable state with `nextpid ≤ 2^31`, pids are distinct,
parents are live, and one pass of `wait` or `waitx` returns what `WaitSpec` says.
-/

namespace Xv6Sched

open Kernel

variable {b : Build}

/-! ### The table invariant -/

/-- The family invariant of the process table. -/
structure TableOk (k : Kernel) : Prop where
  nextpid_pos : 0 < k.nextpid
  init_live : (k.proc initproc).state ≠ .unused ∧ (k.proc initproc).state ≠ .zombie
  init_parent : (k.proc initproc).parent = none
  unused_parent : ∀ i, (k.proc i).state = .unused → (k.proc i).parent = none
  has_parent : ∀ i, i ≠ initproc → (k.proc i).state ≠ .unused → (k.proc i).parent ≠ none
  parent_live : ∀ i q, (k.proc i).parent = some q →
    (k.proc q).state ≠ .unused ∧ (k.proc q).state ≠ .zombie
  no_self : ∀ i, (k.proc i).parent ≠ some i
  pid_range : ∀ i, (k.proc i).state ≠ .unused →
    0 < (k.proc i).pid.toInt ∧ (k.proc i).pid.toInt < k.nextpid
  pid_inj : ∀ i j, (k.proc i).state ≠ .unused → (k.proc j).state ≠ .unused →
    (k.proc i).pid = (k.proc j).pid → i = j

/-- `q` agrees with `p` on what `TableOk` reads. -/
structure Quiet (q p : Proc) : Prop where
  parent : q.parent = p.parent
  pid : q.state ≠ .unused → q.pid = p.pid
  unused : q.state = .unused ↔ p.state = .unused
  zombie : q.state = .zombie ↔ p.state = .zombie

section Quiet

variable {q p : Proc}

theorem Quiet.refl (p : Proc) : Quiet p p := ⟨rfl, fun _ => rfl, Iff.rfl, Iff.rfl⟩

theorem Woken.quiet (h : Woken q p) (h1 : q.parent = p.parent) (h2 : q.pid = p.pid) :
    Quiet q p :=
  ⟨h1, fun _ => h2, h.unused_iff, h.zombie_iff⟩

theorem Quiet.of_fields (h0 : q.state = p.state) (h1 : q.parent = p.parent) (h2 : q.pid = p.pid) :
    Quiet q p :=
  (Woken.of_state h0).quiet h1 h2

/-- A live process moved between live states. -/
theorem Quiet.live (h1 : q.parent = p.parent) (h2 : q.pid = p.pid)
    (hp : p.state ≠ .unused ∧ p.state ≠ .zombie) (hq : q.state ≠ .unused ∧ q.state ≠ .zombie) :
    Quiet q p :=
  ⟨h1, fun _ => h2, iff_of_false hq.1 hp.1, iff_of_false hq.2 hp.2⟩

end Quiet

section Table

variable {k k' : Kernel}

/-- `TableOk` reads only parents, pids of used slots, which slots are UNUSED or ZOMBIE, and
`nextpid`, which may grow. -/
theorem TableOk.quiet (h : TableOk k) (hq : ∀ j, Quiet (k'.proc j) (k.proc j))
    (hn : k.nextpid ≤ k'.nextpid) : TableOk k' where
  nextpid_pos := lt_of_lt_of_le h.nextpid_pos hn
  init_live := ⟨fun e => h.init_live.1 ((hq _).unused.mp e),
    fun e => h.init_live.2 ((hq _).zombie.mp e)⟩
  init_parent := (hq _).parent.trans h.init_parent
  unused_parent i hi := (hq i).parent.trans (h.unused_parent i ((hq i).unused.mp hi))
  has_parent i hi hu := by
    rw [(hq i).parent]
    exact h.has_parent i hi (fun e => hu ((hq i).unused.mpr e))
  parent_live i q hp := by
    rw [(hq i).parent] at hp
    obtain ⟨h1, h2⟩ := h.parent_live i q hp
    exact ⟨fun e => h1 ((hq q).unused.mp e), fun e => h2 ((hq q).zombie.mp e)⟩
  no_self i := by rw [(hq i).parent]; exact h.no_self i
  pid_range i hi := by
    rw [(hq i).pid hi]
    have := h.pid_range i (fun e => hi ((hq i).unused.mpr e))
    omega
  pid_inj i j hi hj he := by
    rw [(hq i).pid hi, (hq j).pid hj] at he
    exact h.pid_inj i j (fun e => hi ((hq i).unused.mpr e)) (fun e => hj ((hq j).unused.mpr e)) he

theorem TableOk.setProc {i : Fin NPROC} {q : Proc} (h : TableOk k) (hq : Quiet q (k.proc i)) :
    TableOk (k.setProc i q) := by
  refine h.quiet (fun j => ?_) le_rfl
  rw [setProc_apply]
  split
  · rename_i hj; subst hj; exact hq
  · exact Quiet.refl _

theorem TableOk.setCpu (h : TableOk k) (c : Fin NCPU) (x : Cpu) : TableOk (k.setCpu c x) :=
  h.quiet (fun _ => Quiet.refl _) le_rfl

/-- A fresh process: an UNUSED slot `np` becomes a live child of the live `p` with the pid
`nextpid`, which is then spent. -/
theorem TableOk.spawn (h : TableOk k) {np p : Fin NPROC} (hu : (k.proc np).state = .unused)
    (hp : (k.proc p).state ≠ .unused ∧ (k.proc p).state ≠ .zombie) (hlt : k.nextpid < 2 ^ 31)
    (hk : ∀ j, j ≠ np → k'.proc j = k.proc j)
    (hs : (k'.proc np).state ≠ .unused ∧ (k'.proc np).state ≠ .zombie)
    (hpar : (k'.proc np).parent = some p) (hpid : (k'.proc np).pid = k.nextpid.toInt32)
    (hn : k'.nextpid = k.nextpid + 1) : TableOk k' := by
  -- the new slot is none of the live ones
  have hne : ∀ j, (k.proc j).state ≠ .unused → j ≠ np := fun j hj e => hj (e ▸ hu)
  have hpn : p ≠ np := hne p hp.1
  have hpidv : (k'.proc np).pid.toInt = k.nextpid := by
    rw [hpid]; exact Int32.toInt_ofNat_of_lt hlt
  refine ⟨by omega, ?_, ?_, ?_, ?_, ?_, ?_, ?_, ?_⟩
  · rw [hk _ (hne _ h.init_live.1)]; exact h.init_live
  · rw [hk _ (hne _ h.init_live.1)]; exact h.init_parent
  · intro i hi
    by_cases hin : i = np
    · subst hin; exact absurd hi hs.1
    · rw [hk i hin] at hi ⊢; exact h.unused_parent i hi
  · intro i hi hu'
    by_cases hin : i = np
    · subst hin; rw [hpar]; simp
    · rw [hk i hin] at hu' ⊢; exact h.has_parent i hi hu'
  · intro i q hq
    by_cases hin : i = np
    · subst hin
      rw [hpar, Option.some.injEq] at hq
      subst hq
      rw [hk _ hpn]; exact hp
    · rw [hk i hin] at hq
      have hl := h.parent_live i q hq
      rw [hk q (hne q hl.1)]; exact hl
  · intro i
    by_cases hin : i = np
    · subst hin; rw [hpar]; exact fun e => hpn (Option.some.inj e)
    · rw [hk i hin]; exact h.no_self i
  · intro i hi
    by_cases hin : i = np
    · subst hin
      rw [hpidv, hn]
      have := h.nextpid_pos
      omega
    · rw [hk i hin] at hi ⊢
      have := h.pid_range i hi
      omega
  · intro i j hi hj he
    by_cases hin : i = np <;> by_cases hjn : j = np
    · exact hin.trans hjn.symm
    · subst hin
      rw [hk j hjn] at hj he
      have := h.pid_range j hj
      have := congrArg Int32.toInt he
      omega
    · subst hjn
      rw [hk i hin] at hi he
      have := h.pid_range i hi
      have := congrArg Int32.toInt he
      omega
    · rw [hk i hin] at hi he; rw [hk j hjn] at hj he
      exact h.pid_inj i j hi hj he

/-- Freeing a ZOMBIE, as `wait` does: nobody has it as parent. -/
theorem TableOk.free (h : TableOk k) {np : Fin NPROC} (hz : (k.proc np).state = .zombie) :
    TableOk (k.setProc np (freeproc (k.proc np))) := by
  have hne : ∀ j, (k.proc j).state ≠ .zombie → j ≠ np := fun j hj e => hj (e ▸ hz)
  have hk : ∀ j, j ≠ np → (k.setProc np (freeproc (k.proc np))).proc j = k.proc j :=
    fun j hj => setProc_ne _ _ _ _ hj
  refine ⟨h.nextpid_pos, ?_, ?_, ?_, ?_, ?_, ?_, ?_, ?_⟩
  · rw [hk _ (hne _ h.init_live.2)]; exact h.init_live
  · rw [hk _ (hne _ h.init_live.2)]; exact h.init_parent
  · intro i hi
    by_cases hin : i = np
    · subst hin; simp
    · rw [hk i hin] at hi ⊢; exact h.unused_parent i hi
  · intro i hi hu
    by_cases hin : i = np
    · subst hin; simp at hu
    · rw [hk i hin] at hu ⊢; exact h.has_parent i hi hu
  · intro i q hq
    by_cases hin : i = np
    · subst hin; simp at hq
    · rw [hk i hin] at hq
      have hl := h.parent_live i q hq
      rw [hk q (hne q hl.2)]; exact hl
  · intro i
    by_cases hin : i = np
    · subst hin; simp
    · rw [hk i hin]; exact h.no_self i
  · intro i hi
    by_cases hin : i = np
    · subst hin; simp at hi
    · rw [hk i hin] at hi ⊢; exact h.pid_range i hi
  · intro i j hi hj he
    by_cases hin : i = np
    · subst hin; simp at hi
    · by_cases hjn : j = np
      · subst hjn; simp at hj
      · rw [hk i hin] at hi he; rw [hk j hjn] at hj he
        exact h.pid_inj i j hi hj he

/-- `exit` by a used slot `p`: its children go to `initproc`, which is live, before `p`
becomes ZOMBIE. -/
theorem TableOk.exit (h : TableOk k) {p : Fin NPROC} {status : Int32}
    (hp : (k.proc p).state ≠ .unused) (he : exit b p status k = some k') : TableOk k' := by
  obtain ⟨hpi, hn, -, hz, hj⟩ := exit_spec he
  have hpar : ∀ j, (k'.proc j).parent =
      if (k.proc j).parent = some p then some initproc else (k.proc j).parent := fun j => (hj j).2.1
  -- every slot but `p` keeps whether it is UNUSED or ZOMBIE
  have hu : ∀ j, j ≠ p → ((k'.proc j).state = .unused ↔ (k.proc j).state = .unused) :=
    fun j hjp => ((hj j).2.2 hjp).unused_iff
  have hzz : ∀ j, j ≠ p → ((k'.proc j).state = .zombie ↔ (k.proc j).state = .zombie) :=
    fun j hjp => ((hj j).2.2 hjp).zombie_iff
  have hused : ∀ j, (k'.proc j).state ≠ .unused → (k.proc j).state ≠ .unused := by
    intro j hj'
    by_cases hjp : j = p
    · rw [hjp]; exact hp
    · exact fun e => hj' ((hu j hjp).mpr e)
  have hinit : (k'.proc initproc).state ≠ .unused ∧ (k'.proc initproc).state ≠ .zombie :=
    ⟨fun e => h.init_live.1 ((hu _ (Ne.symm hpi)).mp e),
      fun e => h.init_live.2 ((hzz _ (Ne.symm hpi)).mp e)⟩
  refine ⟨hn ▸ h.nextpid_pos, hinit, ?_, ?_, ?_, ?_, ?_, ?_, ?_⟩
  · rw [hpar, h.init_parent]; simp
  · intro i hi
    have hip : i ≠ p := fun e => by rw [e, hz] at hi; cases hi
    rw [hpar, h.unused_parent i ((hu i hip).mp hi)]; simp
  · intro i hi hi'
    rw [hpar]
    split
    · simp
    · exact h.has_parent i hi (hused i hi')
  · intro i q hq
    rw [hpar] at hq
    split at hq
    · rw [Option.some.injEq] at hq
      subst hq
      exact hinit
    · rename_i hip
      have hqp : q ≠ p := fun e => hip (e ▸ hq)
      obtain ⟨h1, h2⟩ := h.parent_live i q hq
      exact ⟨fun e => h1 ((hu q hqp).mp e), fun e => h2 ((hzz q hqp).mp e)⟩
  · intro i
    rw [hpar]
    split
    · rename_i hip
      -- `initproc` has no parent, so it is not the child being moved
      intro e
      rw [Option.some.injEq] at e
      subst e
      rw [h.init_parent] at hip
      cases hip
    · exact h.no_self i
  · intro i hi
    rw [(hj i).1, hn]
    exact h.pid_range i (hused i hi)
  · intro i j hi hj' he
    rw [(hj i).1, (hj j).1] at he
    exact h.pid_inj i j (hused i hi) (hused j hj') he

end Table

/-! ### Actions of one process, and the CPU invariant -/

/-- The process a CPU runs is RUNNING, and no process is on two CPUs. -/
structure CpuOk (k : Kernel) : Prop where
  running : ∀ c p, (k.cpus c).proc = some p → (k.proc p).state = .running
  inj : ∀ c d p, (k.cpus c).proc = some p → (k.cpus d).proc = some p → c = d

/-- `k'` is what an action of `p` leaves of `k`: the CPUs as they were, the pid counter at most
grown, and every RUNNING process other than `p` still RUNNING. -/
structure Acts (p : Fin NPROC) (k k' : Kernel) : Prop where
  cpus : k'.cpus = k.cpus
  nextpid : k.nextpid ≤ k'.nextpid
  running : ∀ j, j ≠ p → (k.proc j).state = .running → (k'.proc j).state = .running

section Acts

variable {p : Fin NPROC} {k k1 k' : Kernel}

theorem Acts.refl (p : Fin NPROC) (k : Kernel) : Acts p k k := ⟨rfl, le_rfl, fun _ _ h => h⟩

theorem Acts.trans (h1 : Acts p k k1) (h2 : Acts p k1 k') : Acts p k k' :=
  ⟨h2.cpus.trans h1.cpus, le_trans h1.nextpid h2.nextpid,
    fun j hj hr => h2.running j hj (h1.running j hj hr)⟩

theorem Acts.of_woken (hw : ∀ j, Woken (k'.proc j) (k.proc j)) (hc : k'.cpus = k.cpus)
    (hn : k.nextpid ≤ k'.nextpid) : Acts p k k' :=
  ⟨hc, hn, fun j _ hr => (hw j).running_iff.mpr hr⟩

theorem Acts.setProc_self (q : Proc) : Acts p k (k.setProc p q) :=
  ⟨rfl, le_rfl, fun j hj hr => by rw [setProc_ne _ _ _ _ hj]; exact hr⟩

/-- Changing a slot that is not RUNNING, or changing a slot but not its state. -/
theorem Acts.setProc_other {i : Fin NPROC} {q : Proc}
    (h : (k.proc i).state ≠ .running ∨ q.state = (k.proc i).state) : Acts p k (k.setProc i q) := by
  refine ⟨rfl, le_rfl, fun j _ hr => ?_⟩
  rw [setProc_apply]
  split
  · rename_i hji
    subst hji
    rcases h with h | h
    · exact absurd hr h
    · rw [h]; exact hr
  · exact hr

end Acts

/-! ### Each operation -/

section Ops

variable {k k' : Kernel} {p : Fin NPROC}

theorem live_of_running {s : ProcState} (h : s = .running) : s ≠ .unused ∧ s ≠ .zombie := by
  subst h; exact ⟨by decide, by decide⟩

theorem live_of_runnable {s : ProcState} (h : s = .runnable) : s ≠ .unused ∧ s ≠ .zombie := by
  subst h; exact ⟨by decide, by decide⟩

/-- An UNUSED slot that stays UNUSED without a parent. -/
theorem quiet_unused {q p : Proc} (hp : p.state = .unused) (hq : q.state = .unused)
    (hpar : q.parent = p.parent) : Quiet q p :=
  ⟨hpar, fun h => absurd hq h, iff_of_true hq hp, by rw [hq, hp]⟩

@[simp] theorem sleep_cpus (ch : Chan) : (sleep b p ch k).cpus = k.cpus := by
  cases b <;> rfl

@[simp] theorem sleep_nextpid (ch : Chan) : (sleep b p ch k).nextpid = k.nextpid := by
  cases b <;> rfl

@[simp] theorem yield_cpus : (yield p k).cpus = k.cpus := rfl

@[simp] theorem yield_nextpid : (yield p k).nextpid = k.nextpid := rfl

theorem tableOk_wakeup (h : TableOk k) (me : Option (Fin NPROC)) (ch : Chan) :
    TableOk (wakeup b me ch k) :=
  h.quiet (fun j => (wakeup_woken k me ch j).quiet (wakeup_parent k me ch j) (wakeup_pid k me ch j))
    le_rfl

theorem acts_wakeup (me : Option (Fin NPROC)) (ch : Chan) : Acts p k (wakeup b me ch k) :=
  Acts.of_woken (wakeup_woken k me ch) rfl le_rfl

theorem tableOk_kill (h : TableOk k) (pid : Int32) : TableOk (kill pid k).2 :=
  h.quiet (fun j => (kill_frame k pid j).2.2.quiet (kill_frame k pid j).1 (kill_frame k pid j).2.1)
    (by simp)

theorem acts_kill (pid : Int32) : Acts p k (kill pid k).2 :=
  Acts.of_woken (fun j => (kill_frame k pid j).2.2) (kill_cpus k pid) (by simp)

theorem tableOk_sleep (h : TableOk k) (hp : (k.proc p).state ≠ .unused ∧ (k.proc p).state ≠ .zombie)
    (ch : Chan) : TableOk (sleep b p ch k) := by
  unfold sleep
  refine h.setProc (Quiet.live ?_ ?_ hp ?_) <;> cases b <;> simp

theorem acts_sleep (ch : Chan) : Acts p k (sleep b p ch k) := by
  unfold sleep
  exact Acts.setProc_self _

theorem tableOk_yield (h : TableOk k) (hp : (k.proc p).state ≠ .unused ∧ (k.proc p).state ≠ .zombie) :
    TableOk (yield p k) :=
  h.setProc (Quiet.live rfl rfl hp (live_of_runnable rfl))

theorem acts_yield : Acts p k (yield p k) := Acts.setProc_self _

theorem tableOk_updateTime (h : TableOk k) : TableOk (updateTime k) := by
  refine h.quiet (fun j => ?_) le_rfl
  simp only [updateTime, mapProc_proc]
  split
  · exact Quiet.of_fields rfl rfl rfl
  · exact Quiet.refl _

theorem acts_updateTime : Acts p k (updateTime k) := by
  refine Acts.of_woken (fun j => ?_) rfl le_rfl
  simp only [updateTime, mapProc_proc]
  split
  · exact Woken.of_state rfl
  · exact Woken.refl _

theorem tableOk_clockintr (h : TableOk k) (me : Option (Fin NPROC)) :
    TableOk (clockintr b me k) := by
  have h1 : TableOk { k with ticks := k.ticks + 1 } := h.quiet (fun _ => Quiet.refl _) le_rfl
  exact tableOk_wakeup (tableOk_updateTime h1) me .ticks

theorem acts_clockintr (me : Option (Fin NPROC)) : Acts p k (clockintr b me k) := by
  have h1 : Acts p k { k with ticks := k.ticks + 1 } := ⟨rfl, le_rfl, fun _ _ h => h⟩
  exact (h1.trans acts_updateTime).trans (acts_wakeup me .ticks)

theorem tableOk_upgradePolicy (h : TableOk k) : TableOk (upgradePolicy k) := by
  refine h.quiet (fun j => ?_) le_rfl
  simp only [upgradePolicy, mapProc_proc]
  split_ifs
  · exact Quiet.of_fields rfl rfl rfl
  · exact Quiet.refl _
  · exact Quiet.refl _

theorem upgradePolicy_state (j : Fin NPROC) :
    ((upgradePolicy k).proc j).state = (k.proc j).state := by
  simp only [upgradePolicy, mapProc_proc]
  split_ifs <;> rfl

theorem tableOk_dispatch (h : TableOk k) (c : Fin NCPU) {i : Fin NPROC}
    (hi : (k.proc i).state = .runnable) : TableOk (dispatch b c i k) := by
  unfold dispatch
  refine (h.setProc (Quiet.live ?_ ?_ (live_of_runnable hi) ?_)).setCpu _ _ <;> cases b <;> simp

theorem tableOk_timerTail (h : TableOk k)
    (hp : (k.proc p).state ≠ .unused ∧ (k.proc p).state ≠ .zombie) : TableOk (timerTail b p k) := by
  cases b
  · exact tableOk_yield h hp
  · exact h
  · exact h
  · unfold timerTail
    dsimp only
    split
    · -- demoted, or kept in queue 4: either way only queue fields change
      split
      · exact tableOk_yield (h.setProc (Quiet.of_fields rfl rfl rfl)) (by simpa using hp)
      · exact tableOk_yield (h.setProc (Quiet.of_fields rfl rfl rfl)) (by simpa using hp)
    · exact h.setProc (Quiet.of_fields rfl rfl rfl)

theorem acts_timerTail : Acts p k (timerTail b p k) := by
  cases b
  · exact acts_yield
  · exact Acts.refl _ _
  · exact Acts.refl _ _
  · unfold timerTail
    dsimp only
    split
    · exact (Acts.setProc_self _).trans acts_yield
    · exact Acts.setProc_self _

theorem tableOk_setPriorityI (h : TableOk k)
    (hp : (k.proc p).state ≠ .unused ∧ (k.proc p).state ≠ .zombie) (priority pid : Int32) :
    TableOk (setPriorityI b p priority pid k).2 := by
  unfold setPriorityI
  split
  · split
    · exact h
    · split
      · exact h
      · split
        · exact h
        · -- the new priority and the reset times are no field the invariant reads
          rename_i i _ _
          dsimp only
          split
          · refine tableOk_yield (h.setProc (Quiet.of_fields rfl rfl rfl)) ?_
            rw [setProc_apply]
            split
            · rename_i e; subst e; simpa using hp
            · exact hp
          · exact h.setProc (Quiet.of_fields rfl rfl rfl)
  · exact h

theorem acts_setPriorityI (priority pid : Int32) : Acts p k (setPriorityI b p priority pid k).2 := by
  unfold setPriorityI
  split
  · split
    · exact Acts.refl _ _
    · split
      · exact Acts.refl _ _
      · split
        · exact Acts.refl _ _
        · dsimp only
          split
          · refine Acts.trans ?_ acts_yield
            exact Acts.setProc_other (Or.inr rfl)
          · exact Acts.setProc_other (Or.inr rfl)
  · exact Acts.refl _ _

theorem acts_exit {status : Int32} (he : exit b p status k = some k') : Acts p k k' := by
  obtain ⟨-, hn, hc, -, hj⟩ := exit_spec he
  exact ⟨hc, hn.symm ▸ le_rfl, fun j hjp hr => ((hj j).2.2 hjp).running_iff.mpr hr⟩

theorem zombieChild_spec {np : Fin NPROC} (h : zombieChild p k = some np) :
    (k.proc np).parent = some p ∧ (k.proc np).state = .zombie := by
  simpa using Scan.firstFin_spec h

theorem tableOk_wait (h : TableOk k) (hp : (k.proc p).state ≠ .unused ∧ (k.proc p).state ≠ .zombie)
    (addr : UInt64) (copyOk : Bool) : TableOk (wait b p addr copyOk k).2 := by
  unfold wait
  split
  · rename_i np hnp
    split
    · exact h
    · exact h.free (zombieChild_spec hnp).2
  · split
    · exact h
    · exact tableOk_sleep h hp _

theorem acts_wait (addr : UInt64) (copyOk : Bool) : Acts p k (wait b p addr copyOk k).2 := by
  unfold wait
  split
  · rename_i np hnp
    split
    · exact Acts.refl _ _
    · exact Acts.setProc_other (Or.inl (by rw [(zombieChild_spec hnp).2]; decide))
  · split
    · exact Acts.refl _ _
    · exact acts_sleep _

theorem tableOk_waitx (h : TableOk k) (hp : (k.proc p).state ≠ .unused ∧ (k.proc p).state ≠ .zombie)
    (addr : UInt64) (copyOk : Bool) : TableOk (waitx b p addr copyOk k).2.2 := by
  unfold waitx
  split
  · rename_i np hnp
    split
    · exact h
    · exact h.free (zombieChild_spec hnp).2
  · split
    · exact h
    · exact tableOk_sleep h hp _

theorem acts_waitx (addr : UInt64) (copyOk : Bool) : Acts p k (waitx b p addr copyOk k).2.2 := by
  unfold waitx
  split
  · rename_i np hnp
    split
    · exact Acts.refl _ _
    · exact Acts.setProc_other (Or.inl (by rw [(zombieChild_spec hnp).2]; decide))
  · split
    · exact Acts.refl _ _
    · exact acts_sleep _

/-- The child `fork` sets up in the slot `allocproc` gave it. -/
theorem TableOk.forkChild (h : TableOk k) {np : Fin NPROC} {k1 : Kernel}
    (hu : (k.proc np).state = .unused)
    (hp : (k.proc p).state ≠ .unused ∧ (k.proc p).state ≠ .zombie) (hlt : k.nextpid < 2 ^ 31)
    (hk1 : ∀ j, j ≠ np → k1.proc j = k.proc j) (hn1 : k1.nextpid = k.nextpid + 1)
    (hpid1 : (k1.proc np).pid = k.nextpid.toInt32) (t : Int32) :
    TableOk (k1.setProc np { k1.proc np with trace := t, parent := some p, state := .runnable }) :=
  h.spawn hu hp hlt (fun j hj => by rw [setProc_ne _ _ _ _ hj]; exact hk1 j hj)
    (by simp) (by simp) (by simpa using hpid1) (by simpa using hn1)

theorem tableOk_fork (h : TableOk k) (hp : (k.proc p).state ≠ .unused ∧ (k.proc p).state ≠ .zombie)
    (mem copy : Bool) (hn : (fork b p mem copy k).2.nextpid ≤ 2 ^ 31) :
    TableOk (fork b p mem copy k).2 := by
  unfold fork at hn ⊢
  rcases hal : allocproc b mem k with ⟨_ | np, k1⟩
  · -- no slot, or no memory: at most a slot taken and given back
    obtain ⟨hn1, -, hj⟩ := allocproc_none hal
    refine h.quiet (fun j => ?_) hn1
    rcases hj j with e | ⟨hu, hu', hpar⟩
    · rw [e]; exact Quiet.refl _
    · exact quiet_unused hu hu' (hpar.trans (h.unused_parent j hu).symm)
  · rw [hal] at hn
    obtain ⟨hu, hn1, -, -, hpid1, -, hk1⟩ := allocproc_some hal
    dsimp only at hn ⊢
    split
    · -- `uvmcopy` failed: the slot is given back
      refine h.quiet (fun j => ?_) (by simp [hn1])
      rw [setProc_apply]
      split
      · rename_i e; subst e
        exact quiet_unused hu (by simp) (by simp [h.unused_parent _ hu])
      · rename_i hjn; rw [hk1 j hjn]; exact Quiet.refl _
    · rename_i hc
      rw [if_neg hc] at hn
      simp only [setProc_setProc, setProc_same] at hn ⊢
      have hlt : k.nextpid < 2 ^ 31 := by
        have e : k.nextpid + 1 ≤ 2 ^ 31 := by
          revert hn
          split
          · split <;> simp [yield, hn1]
          · simp [hn1]
        omega
      have hpn : p ≠ np := fun e => hp.1 (e ▸ hu)
      have h4 := h.forkChild hu hp hlt hk1 hn1 hpid1 (k1.proc p).trace
      -- the MLFQ parent outside queue 0 then yields
      split
      · split
        · refine tableOk_yield (h4.setProc (Quiet.of_fields rfl rfl rfl)) ?_
          simpa [setProc_ne _ _ _ _ hpn, hk1 p hpn] using hp
        · exact h4
      · exact h4

theorem fork_frame {j : Fin NPROC} (hjp : j ≠ p) (hu : (k.proc j).state ≠ .unused)
    (mem copy : Bool) : (fork b p mem copy k).2.proc j = k.proc j := by
  unfold fork
  rcases hal : allocproc b mem k with ⟨_ | np, k1⟩
  · rcases (allocproc_none hal).2.2 j with e | ⟨hu', -⟩
    · exact e
    · exact absurd hu' hu
  · obtain ⟨hnu, -, -, -, -, -, hk⟩ := allocproc_some hal
    have hjn : j ≠ np := fun e => hu (e ▸ hnu)
    dsimp only
    split
    · rw [setProc_ne _ _ _ _ hjn]; exact hk j hjn
    · split
      · split <;> simp only [yield, setProc_ne _ _ _ _ hjn, setProc_ne _ _ _ _ hjp, hk j hjn]
      · simp only [setProc_ne _ _ _ _ hjn, hk j hjn]

theorem fork_cpus (mem copy : Bool) : (fork b p mem copy k).2.cpus = k.cpus := by
  unfold fork
  rcases hal : allocproc b mem k with ⟨_ | np, k1⟩
  · exact (allocproc_none hal).2.1
  · have hc := (allocproc_some hal).2.2.1
    dsimp only
    split
    · simpa using hc
    · split
      · split <;> simpa [yield] using hc
      · simpa using hc

theorem fork_nextpid (mem copy : Bool) : k.nextpid ≤ (fork b p mem copy k).2.nextpid := by
  unfold fork
  rcases hal : allocproc b mem k with ⟨_ | np, k1⟩
  · exact (allocproc_none hal).1
  · have hn := (allocproc_some hal).2.1
    dsimp only
    split
    · simp [hn]
    · split
      · split <;> simp [yield, hn]
      · simp [hn]

theorem acts_fork (mem copy : Bool) : Acts p k (fork b p mem copy k).2 :=
  ⟨fork_cpus mem copy, fork_nextpid mem copy, fun j hjp hr => by
    rw [fork_frame hjp (by rw [hr]; decide)]; exact hr⟩

theorem tableOk_killedCheck (h : TableOk k) (hk : killedCheck b p k = some k') : TableOk k' := by
  unfold killedCheck at hk
  split at hk
  · rename_i hr
    exact h.exit (by rw [hr.1]; decide) hk
  · cases hk; exact h

theorem acts_killedCheck (hk : killedCheck b p k = some k') : Acts p k k' := by
  unfold killedCheck at hk
  split at hk
  · exact acts_exit hk
  · cases hk; exact Acts.refl _ _

theorem acts_doCall {call : Call} (hd : doCall b p call k = some k') : Acts p k k' := by
  cases call <;> simp only [doCall, Option.some.injEq] at hd
  case exit => exact acts_exit hd
  all_goals subst hd
  · exact acts_fork _ _
  · exact acts_wait _ _
  · exact acts_waitx _ _
  · exact acts_kill _
  · exact acts_sleep _
  · exact acts_wakeup _ _
  · exact acts_setPriorityI _ _
  · exact Acts.refl _ _

/-- A system call by the running process `p`. -/
theorem tableOk_doCall (h : TableOk k) (hp : (k.proc p).state = .running) {call : Call}
    (hd : doCall b p call k = some k') (hn : k'.nextpid ≤ 2 ^ 31) : TableOk k' := by
  have hl := live_of_running hp
  cases call <;> simp only [doCall, Option.some.injEq] at hd
  case exit => exact h.exit hl.1 hd
  all_goals subst hd
  · exact tableOk_fork h hl _ _ hn
  · exact tableOk_wait h hl _ _
  · exact tableOk_waitx h hl _ _
  · exact tableOk_kill h _
  · exact tableOk_sleep h hl _
  · exact tableOk_wakeup h _ _
  · exact tableOk_setPriorityI h hl _ _
  · exact h

theorem clockintr_woken (me : Option (Fin NPROC)) (j : Fin NPROC) :
    Woken ((clockintr b me k).proc j) (k.proc j) := by
  refine (wakeup_woken _ me .ticks j).trans ?_
  simp only [updateTime, mapProc_proc]
  split
  · exact Woken.of_state rfl
  · exact Woken.refl _

end Ops

/-! ### Steps -/

section Steps

variable {k k1 k' : Kernel} {c : Fin NCPU} {p : Fin NPROC}

theorem CpuOk.woken (hk : CpuOk k) (hw : ∀ j, Woken (k'.proc j) (k.proc j))
    (hc : k'.cpus = k.cpus) : CpuOk k' := by
  refine ⟨fun d q hq => ?_, fun d e q hd he => ?_⟩
  · rw [hc] at hq
    exact (hw q).running_iff.mpr (hk.running d q hq)
  · rw [hc] at hd he
    exact hk.inj d e q hd he

/-- Changing a CPU's scheduler fields but not the process it runs. -/
theorem CpuOk.setCpu (hk : CpuOk k) {x : Cpu} (hx : x.proc = (k.cpus c).proc) :
    CpuOk (k.setCpu c x) := by
  have e : ∀ d, ((k.setCpu c x).cpus d).proc = (k.cpus d).proc := by
    intro d
    by_cases hd : d = c
    · subst hd; simpa using hx
    · rw [setCpu_ne _ _ _ _ hd]
  refine ⟨fun d q hq => ?_, fun d e' q hd he => ?_⟩
  · rw [e] at hq; exact hk.running d q hq
  · rw [e] at hd he; exact hk.inj d e' q hd he

theorem dispatch_self (i : Fin NPROC) : ((dispatch b c i k).proc i).state = .running := by
  cases b <;> simp [dispatch]

theorem dispatch_ne {i j : Fin NPROC} (hj : j ≠ i) : (dispatch b c i k).proc j = k.proc j := by
  cases b <;> simp [dispatch, setProc_ne _ _ _ _ hj]

@[simp] theorem dispatch_nextpid (i : Fin NPROC) : (dispatch b c i k).nextpid = k.nextpid := by
  cases b <;> rfl

/-- CPU `c` switches to the RUNNABLE `i`, which no CPU runs. -/
theorem CpuOk.dispatch (hk : CpuOk k) {i : Fin NPROC}
    (hi : (k.proc i).state = .runnable) : CpuOk (dispatch b c i k) := by
  have hcpu : ∀ d, ((Xv6Sched.dispatch b c i k).cpus d).proc =
      if d = c then some i else (k.cpus d).proc := by
    intro d
    cases b <;> by_cases hd : d = c <;> simp [Xv6Sched.dispatch, hd]
  -- a process some CPU runs is RUNNING, so it is not `i`
  have hni : ∀ d q, (k.cpus d).proc = some q → q ≠ i := fun d q hq e => by
    rw [← e, hk.running d q hq] at hi; cases hi
  refine ⟨fun d q hq => ?_, fun d e q hd he => ?_⟩
  · rw [hcpu] at hq
    split at hq
    · rw [Option.some.injEq] at hq; subst hq; exact dispatch_self _
    · rw [dispatch_ne (hni d q hq)]; exact hk.running d q hq
  · rw [hcpu] at hd he
    split at hd <;> split at he
    · rename_i h1 h2; exact h1.trans h2.symm
    · rw [Option.some.injEq] at hd; subst hd; exact absurd rfl (hni e _ he)
    · rw [Option.some.injEq] at he; subst he; exact absurd rfl (hni d _ hd)
    · exact hk.inj d e q hd he

/-- Back to the scheduler: CPU `c` keeps `p` only if `p` still runs. -/
theorem CpuOk.release (hk : CpuOk k) (hA : Acts p k k1) (hc : (k.cpus c).proc = some p) :
    CpuOk (release c p k1) := by
  -- the other CPUs run other processes, which `p`'s action left RUNNING
  have hother : ∀ d q, (k.cpus d).proc = some q → q ≠ p → (k1.proc q).state = .running :=
    fun d q hq hqp => hA.running q hqp (hk.running d q hq)
  unfold Xv6Sched.release
  split
  · rename_i hr
    refine ⟨fun d q hq => ?_, fun d e q hd he => ?_⟩
    · rw [hA.cpus] at hq
      by_cases hqp : q = p
      · subst hqp; exact hr
      · exact hother d q hq hqp
    · rw [hA.cpus] at hd he; exact hk.inj d e q hd he
  · have e : ∀ d, d ≠ c → ((k1.setCpu c { k1.cpus c with proc := none }).cpus d).proc =
        (k.cpus d).proc := fun d hd => by rw [setCpu_ne _ _ _ _ hd, hA.cpus]
    refine ⟨fun d q hq => ?_, fun d e' q hd he => ?_⟩
    · by_cases hdc : d = c
      · subst hdc; simp at hq
      · rw [e d hdc] at hq
        exact hother d q hq (fun hqp => hdc (hk.inj d c q hq (hqp ▸ hc)))
    · by_cases hdc : d = c
      · subst hdc; simp at hd
      · by_cases hec : e' = c
        · subst hec; simp at he
        · rw [e d hdc] at hd; rw [e e' hec] at he; exact hk.inj d e' q hd he

theorem tableOk_release (h : TableOk k) : TableOk (release c p k) := by
  unfold release
  split
  · exact h
  · exact h.setCpu _ _

@[simp] theorem release_nextpid : (release c p k).nextpid = k.nextpid := by
  unfold release; split <;> rfl

/-- The trap-return check of a trap from user mode. -/
theorem acts_userCheck {user : Bool}
    (h : (if user then killedCheck b p k else some k) = some k') : Acts p k k' := by
  split at h
  · exact acts_killedCheck h
  · cases h; exact Acts.refl _ _

theorem tableOk_userCheck (hT : TableOk k) {user : Bool}
    (h : (if user then killedCheck b p k else some k) = some k') : TableOk k' := by
  split at h
  · exact tableOk_killedCheck hT h
  · cases h; exact hT

/-- One step of the process `p` on CPU `c` is an action of `p`, then `release`. -/
theorem procStep_acts {l : Label} (hs : procStep b c p l k = some k') :
    ∃ k1, Acts p k k1 ∧ k' = release c p k1 := by
  cases l <;> simp only [procStep] at hs
  case timer user =>
    have h1 : Acts p k (if c = cpu0 then clockintr b (some p) k else k) := by
      split
      · exact acts_clockintr _
      · exact Acts.refl _ _
    obtain ⟨k2, h2, rfl⟩ := Option.map_eq_some_iff.mp hs
    obtain ⟨k3, h3, rfl⟩ := Option.map_eq_some_iff.mp h2
    refine ⟨_, (h1.trans (acts_userCheck h3)).trans ?_, rfl⟩
    split
    · exact acts_timerTail
    · exact Acts.refl _ _
  case intr ch user =>
    obtain ⟨k2, h2, rfl⟩ := Option.map_eq_some_iff.mp hs
    exact ⟨_, (acts_wakeup _ _).trans (acts_userCheck h2), rfl⟩
  case fault =>
    obtain ⟨k2, h2, rfl⟩ := Option.map_eq_some_iff.mp hs
    exact ⟨_, (Acts.setProc_self _).trans (acts_exit h2), rfl⟩
  case syscall call =>
    obtain ⟨k2, h2, rfl⟩ := Option.map_eq_some_iff.mp hs
    refine ⟨_, ?_, rfl⟩
    split at h2
    · exact acts_exit h2
    · obtain ⟨k3, h3, h4⟩ := Option.bind_eq_some_iff.mp h2
      exact (acts_doCall h3).trans (acts_killedCheck h4)
  case resume call =>
    obtain ⟨k2, h2, rfl⟩ := Option.map_eq_some_iff.mp hs
    obtain ⟨k3, h3, h4⟩ := Option.bind_eq_some_iff.mp h2
    exact ⟨_, ((Acts.setProc_self _).trans (acts_doCall h3)).trans (acts_killedCheck h4), rfl⟩
  all_goals cases hs

/-- One step of the running process `p`. -/
theorem tableOk_procStep (h : TableOk k) (hp : (k.proc p).state = .running) {l : Label}
    (hs : procStep b c p l k = some k') (hn : k'.nextpid ≤ 2 ^ 31) : TableOk k' := by
  cases l <;> simp only [procStep] at hs
  case timer user =>
    have h1 : TableOk (if c = cpu0 then clockintr b (some p) k else k) ∧
        ((if c = cpu0 then clockintr b (some p) k else k).proc p).state = .running := by
      split
      · exact ⟨tableOk_clockintr h _, (clockintr_woken _ p).running_iff.mpr hp⟩
      · exact ⟨h, hp⟩
    obtain ⟨k2, h2, rfl⟩ := Option.map_eq_some_iff.mp hs
    obtain ⟨k3, h3, rfl⟩ := Option.map_eq_some_iff.mp h2
    have hk3 := tableOk_userCheck h1.1 h3
    refine tableOk_release ?_
    split
    · rename_i hr; exact tableOk_timerTail hk3 (live_of_running hr)
    · exact hk3
  case intr ch user =>
    obtain ⟨k2, h2, rfl⟩ := Option.map_eq_some_iff.mp hs
    exact tableOk_release (tableOk_userCheck (tableOk_wakeup h _ _) h2)
  case fault =>
    obtain ⟨k2, h2, rfl⟩ := Option.map_eq_some_iff.mp hs
    have h1 : TableOk (k.setProc p { k.proc p with killed := 1 }) :=
      h.setProc (Quiet.of_fields rfl rfl rfl)
    exact tableOk_release (h1.exit (by simp [hp]) h2)
  case syscall call =>
    obtain ⟨k2, h2, rfl⟩ := Option.map_eq_some_iff.mp hs
    refine tableOk_release ?_
    split at h2
    · exact h.exit (by rw [hp]; decide) h2
    · obtain ⟨k3, h3, h4⟩ := Option.bind_eq_some_iff.mp h2
      have hn3 : k3.nextpid ≤ 2 ^ 31 :=
        le_trans (acts_killedCheck h4).nextpid (by simpa using hn)
      exact tableOk_killedCheck (tableOk_doCall h hp h3 hn3) h4
  case resume call =>
    obtain ⟨k2, h2, rfl⟩ := Option.map_eq_some_iff.mp hs
    obtain ⟨k3, h3, h4⟩ := Option.bind_eq_some_iff.mp h2
    have h1 : TableOk (k.setProc p { k.proc p with chan := .null }) :=
      h.setProc (Quiet.of_fields rfl rfl rfl)
    have hn3 : k3.nextpid ≤ 2 ^ 31 :=
      le_trans (acts_killedCheck h4).nextpid (by simpa using hn)
    exact tableOk_release (tableOk_killedCheck (tableOk_doCall h1 (by simp [hp]) h3 hn3) h4)
  all_goals cases hs

theorem tableOk_schedule (h : TableOk k) (hs : schedule b c k = some k') : TableOk k' := by
  cases b <;> simp only [schedule] at hs
  case DEFAULT =>
    obtain ⟨i, hi, rfl⟩ := Option.map_eq_some_iff.mp hs
    exact tableOk_dispatch (h.setCpu _ _) c (defaultPick_runnable k hi)
  case FCFS =>
    obtain ⟨i, hi, rfl⟩ := Option.map_eq_some_iff.mp hs
    exact tableOk_dispatch h c (fcfsPick_runnable k hi)
  case PBS =>
    obtain ⟨i, hi, rfl⟩ := Option.map_eq_some_iff.mp hs
    exact tableOk_dispatch h c (pbsPick_runnable k hi)
  case MLFQ =>
    split at hs
    · obtain ⟨i, hi, rfl⟩ := Option.map_eq_some_iff.mp hs
      exact tableOk_dispatch (h.setCpu _ _) c (rrPick_runnable k hi)
    · have hu := tableOk_upgradePolicy h
      split at hs
      · rename_i i hi
        cases hs; exact tableOk_dispatch hu c (mlfqQueues_runnable _ hi)
      · split at hs <;> cases hs
        · rename_i i hi
          exact tableOk_dispatch (hu.setCpu _ _) c (rrPick_runnable _ hi)
        · exact hu.setCpu _ _

theorem cpuOk_upgradePolicy (hk : CpuOk k) : CpuOk (upgradePolicy k) :=
  hk.woken (fun j => Woken.of_state (upgradePolicy_state j)) rfl

/-- An iteration of the scheduler of CPU `c`: whichever build, it dispatches a RUNNABLE
process, which no CPU runs. -/
theorem cpuOk_schedule (hk : CpuOk k) (hs : schedule b c k = some k') : CpuOk k' := by
  cases b <;> simp only [schedule] at hs
  case DEFAULT =>
    obtain ⟨i, hi, rfl⟩ := Option.map_eq_some_iff.mp hs
    exact CpuOk.dispatch (hk.setCpu (by rfl)) (defaultPick_runnable k hi)
  case FCFS =>
    obtain ⟨i, hi, rfl⟩ := Option.map_eq_some_iff.mp hs
    exact hk.dispatch (fcfsPick_runnable k hi)
  case PBS =>
    obtain ⟨i, hi, rfl⟩ := Option.map_eq_some_iff.mp hs
    exact hk.dispatch (pbsPick_runnable k hi)
  case MLFQ =>
    split at hs
    · obtain ⟨i, hi, rfl⟩ := Option.map_eq_some_iff.mp hs
      exact CpuOk.dispatch (hk.setCpu (by rfl)) (rrPick_runnable k hi)
    · have hu := cpuOk_upgradePolicy hk
      split at hs
      · rename_i i hi
        cases hs; exact hu.dispatch (mlfqQueues_runnable _ hi)
      · split at hs <;> cases hs
        · rename_i i hi
          exact CpuOk.dispatch (hu.setCpu (by rfl)) (rrPick_runnable (upgradePolicy k) hi)
        · exact hu.setCpu rfl

theorem schedule_nextpid (hs : schedule b c k = some k') : k'.nextpid = k.nextpid := by
  cases b <;> simp only [schedule] at hs
  case DEFAULT =>
    obtain ⟨i, -, rfl⟩ := Option.map_eq_some_iff.mp hs; simp
  case FCFS =>
    obtain ⟨i, -, rfl⟩ := Option.map_eq_some_iff.mp hs; simp
  case PBS =>
    obtain ⟨i, -, rfl⟩ := Option.map_eq_some_iff.mp hs; simp
  case MLFQ =>
    split at hs
    · obtain ⟨i, -, rfl⟩ := Option.map_eq_some_iff.mp hs; simp
    · split at hs
      · cases hs; simp [upgradePolicy]
      · split at hs <;> cases hs <;> simp [upgradePolicy]

theorem spinTo_cpuOk (hk : CpuOk k) {r : Nat} (hs : spinTo b c r k = some k') :
    CpuOk k' ∧ k'.proc = k.proc ∧ k'.nextpid = k.nextpid := by
  cases b <;> simp only [spinTo] at hs
  case DEFAULT => cases hs; exact ⟨hk.setCpu rfl, rfl, rfl⟩
  case MLFQ =>
    split at hs
    · cases hs; exact ⟨hk.setCpu rfl, rfl, rfl⟩
    · cases hs
  all_goals cases hs

/-- **Step lemma** for the CPU invariant. -/
theorem cpuOk_next (hk : CpuOk k) {ncpu : Nat} {l : Label} (hs : next b ncpu k l = some k') :
    CpuOk k' ∧ k.nextpid ≤ k'.nextpid := by
  simp only [next] at hs
  by_cases hc : l.cpu.val < ncpu
  swap
  · rw [if_neg hc] at hs; cases hs
  rw [if_pos hc] at hs
  rcases hp : (k.cpus l.cpu).proc with _ | p <;> rw [hp] at hs
  · cases l <;> simp only [Option.some.injEq] at hs
    case schedule => exact ⟨cpuOk_schedule hk hs, (schedule_nextpid hs).symm ▸ le_rfl⟩
    case spin =>
      split at hs
      · obtain ⟨h1, -, h3⟩ := spinTo_cpuOk hk hs
        exact ⟨h1, h3.symm ▸ le_rfl⟩
      · cases hs
    case timer =>
      subst hs
      split
      · exact ⟨hk.woken (clockintr_woken none) rfl, le_rfl⟩
      · exact ⟨hk, le_rfl⟩
    case intr => subst hs; exact ⟨hk.woken (wakeup_woken k none _) rfl, le_rfl⟩
    all_goals cases hs
  · obtain ⟨k1, hA, rfl⟩ := procStep_acts hs
    exact ⟨hk.release hA hp, by simpa using hA.nextpid⟩

/-- **Step lemma** for the table invariant, given the CPU invariant of the pre-state. -/
theorem tableOk_next (hk : CpuOk k) (h : TableOk k) {ncpu : Nat} {l : Label}
    (hs : next b ncpu k l = some k') (hn : k'.nextpid ≤ 2 ^ 31) : TableOk k' := by
  simp only [next] at hs
  by_cases hc : l.cpu.val < ncpu
  swap
  · rw [if_neg hc] at hs; cases hs
  rw [if_pos hc] at hs
  rcases hp : (k.cpus l.cpu).proc with _ | p <;> rw [hp] at hs
  · cases l <;> simp only [Option.some.injEq] at hs
    case schedule => exact tableOk_schedule h hs
    case spin =>
      split at hs
      · obtain ⟨-, h2, h3⟩ := spinTo_cpuOk hk hs
        exact h.quiet (fun j => by rw [h2]; exact Quiet.refl _) h3.symm.le
      · cases hs
    case timer =>
      subst hs
      split
      · exact tableOk_clockintr h _
      · exact h
    case intr => subst hs; exact tableOk_wakeup h _ _
    all_goals cases hs
  · exact tableOk_procStep h (hk.running _ p hp) hs hn

/-! ### Boot and runs -/

theorem boot_alloc (b : Build) : ∃ k1, allocproc b true ⟨fun _ => Proc.zero, fun _ => Cpu.idle, 0, 1⟩ =
    (some initproc, k1) := by
  have hf : (Scan.firstFin fun i : Fin NPROC => decide (Proc.zero.state = .unused)) =
      some initproc := by decide
  unfold allocproc
  dsimp only
  rw [hf]
  exact ⟨_, rfl⟩

theorem boot_spec (b : Build) : (boot b).nextpid = 2 ∧ (boot b).cpus = (fun _ => Cpu.idle) ∧
    ((boot b).proc initproc).state = .runnable ∧ ((boot b).proc initproc).parent = none ∧
    ((boot b).proc initproc).pid = (1 : Nat).toInt32 ∧
    ∀ j, j ≠ initproc → (boot b).proc j = Proc.zero := by
  obtain ⟨k1, hal⟩ := boot_alloc b
  obtain ⟨-, hn, hc, -, hpid, hpar, hk⟩ := allocproc_some hal
  have e : boot b = k1.setProc initproc { k1.proc initproc with state := .runnable } := by
    unfold boot; dsimp only; rw [hal]
  rw [e]
  refine ⟨by simpa using hn, by simpa using hc, by simp, ?_, by simpa using hpid, fun j hj => ?_⟩
  · rw [setProc_same]; exact hpar
  · rw [setProc_ne _ _ _ _ hj, hk j hj]

theorem tableOk_boot : TableOk (boot b) := by
  obtain ⟨hn, -, hs, hpar, hpid, hz⟩ := boot_spec b
  -- only `initproc` is used, and no slot has a parent
  have hused : ∀ j, ((boot b).proc j).state ≠ .unused → j = initproc := fun j hj => by
    by_contra hne; rw [hz j hne] at hj; exact hj rfl
  have hparent : ∀ j, ((boot b).proc j).parent = none := fun j => by
    by_cases hj : j = initproc
    · rw [hj]; exact hpar
    · rw [hz j hj]; rfl
  refine
    { nextpid_pos := by omega
      init_live := by rw [hs]; decide
      init_parent := hpar
      unused_parent := fun j _ => hparent j
      has_parent := fun j hj hu => absurd (hused j hu) hj
      parent_live := fun j q hq => by rw [hparent j] at hq; cases hq
      no_self := fun j => by rw [hparent j]; simp
      pid_range := fun j hj => ?_
      pid_inj := fun i j hi hj _ => (hused i hi).trans (hused j hj).symm }
  rw [hused j hj, hpid, hn]
  decide

theorem cpuOk_boot : CpuOk (boot b) := by
  obtain ⟨-, hc, -⟩ := boot_spec b
  refine ⟨fun c p h => ?_, fun c d p h _ => ?_⟩ <;> rw [hc] at h <;> cases h

/-- **Run lemma**: the CPU invariant holds in every reachable state. -/
theorem Reachable.cpuOk {ncpu : Nat} (h : Reachable b ncpu k) : CpuOk k :=
  LTS.Reachable.inv cpuOk_boot (fun _ _ _ hk hs => (cpuOk_next hk hs).1) h

/-- **Run lemma**: the table invariant holds in every reachable state whose pid counter has not
passed `2^31`; the counter never decreases, so neither had it before. -/
theorem Reachable.tableOk {ncpu : Nat} (h : Reachable b ncpu k) :
    k.nextpid ≤ 2 ^ 31 → TableOk k := by
  unfold Reachable at h
  induction h with
  | init => exact fun _ => tableOk_boot
  | step l hr hs ih =>
    intro hn
    have hk : CpuOk _ := Reachable.cpuOk hr
    exact tableOk_next hk (ih (le_trans (cpuOk_next hk hs).2 hn)) hs hn

end Steps

/-! ### What one pass of `wait` returns -/

section Wait

variable {k : Kernel} {p : Fin NPROC}

/-- What a pass of `wait(addr)` or `waitx(addr, ..)` by `p` on `k`, ending with `out` and
leaving `k'`, is for: `-1` when `p` has no child, or has no ZOMBIE child and has been killed, or
the `copyout` of a ZOMBIE child's status fails, and then nothing changes; it sleeps only when `p`
has children, none of them ZOMBIE, and has not been killed; any other return is the pid of a
ZOMBIE child of `p`, whose slot alone is freed. -/
def WaitSpec (p : Fin NPROC) (addr : UInt64) (copyOk : Bool) (k : Kernel) (out : WaitOut)
    (k' : Kernel) : Prop :=
  (out = .ret (-1) ↔
      (∀ np, (k.proc np).parent ≠ some p) ∨
      ((∀ np, (k.proc np).parent = some p → (k.proc np).state ≠ .zombie) ∧
        (k.proc p).killed ≠ 0) ∨
      ((∃ np, (k.proc np).parent = some p ∧ (k.proc np).state = .zombie) ∧
        addr ≠ 0 ∧ copyOk = false)) ∧
    (out = .ret (-1) → k' = k) ∧
    (out = .sleep → (∃ np, (k.proc np).parent = some p) ∧
      (∀ np, (k.proc np).parent = some p → (k.proc np).state ≠ .zombie) ∧ (k.proc p).killed = 0) ∧
    ∀ r, out = .ret r → r ≠ -1 → ∃ np, (k.proc np).parent = some p ∧
      (k.proc np).state = .zombie ∧ (k.proc np).pid = r ∧ k' = k.setProc np (freeproc (k.proc np))

/-- A used slot's pid is positive, so it is never the `-1` of a failed `wait`. -/
theorem TableOk.pid_ne (h : TableOk k) {i : Fin NPROC} (hi : (k.proc i).state ≠ .unused) :
    (k.proc i).pid ≠ -1 := fun e => by
  have h0 := (h.pid_range i hi).1
  rw [e] at h0
  exact absurd h0 (by decide)

theorem zombieChild_none (h : zombieChild p k = none) (np : Fin NPROC) :
    (k.proc np).parent = some p → (k.proc np).state ≠ .zombie := by
  intro hp hz
  have := Scan.firstFin_eq_none.mp h np
  simp [hp, hz] at this

/-- One pass of `wait` meets `WaitSpec` wherever the table invariant holds. -/
theorem wait_spec (h : TableOk k) (addr : UInt64) (copyOk : Bool) :
    WaitSpec p addr copyOk k (wait b p addr copyOk k).1 (wait b p addr copyOk k).2 := by
  unfold wait
  rcases hz : zombieChild p k with _ | np
  · -- no ZOMBIE child: `-1` or sleep, as `havekids` and `killed` say
    have hnz := zombieChild_none hz
    dsimp only
    by_cases hc : havekids p k = false ∨ (k.proc p).killed ≠ 0
    · rw [if_pos hc]
      refine ⟨iff_of_true rfl ?_, fun _ => rfl, (fun e => by cases e), fun r hr hne => ?_⟩
      · rcases hc with hc | hc
        · refine Or.inl fun np hnp => ?_
          have hk := (havekids_iff k p).mpr ⟨np, hnp⟩
          rw [hc] at hk
          cases hk
        · exact Or.inr (Or.inl ⟨hnz, hc⟩)
      · cases hr
        exact absurd rfl hne
    · rw [if_neg hc]
      obtain ⟨hkids, hkilled⟩ := not_or.mp hc
      -- `p` has a child, and sleeps
      obtain ⟨x, hx⟩ := (havekids_iff k p).mp (by simpa using hkids)
      refine ⟨iff_of_false (fun e => by cases e) ?_, (fun e => by cases e),
        fun _ => ⟨⟨x, hx⟩, hnz, not_not.mp hkilled⟩, fun r hr => by cases hr⟩
      rintro (h1 | ⟨-, h2⟩ | ⟨⟨np, hp, hzo⟩, -⟩)
      · exact h1 x hx
      · exact hkilled h2
      · exact hnz np hp hzo
  · -- a ZOMBIE child `np`: its pid, unless the `copyout` fails
    obtain ⟨hp, hzo⟩ := zombieChild_spec hz
    dsimp only
    by_cases hc : addr ≠ 0 ∧ copyOk = false
    · rw [if_pos hc]
      exact ⟨iff_of_true rfl (Or.inr (Or.inr ⟨⟨np, hp, hzo⟩, hc⟩)), fun _ => rfl, (fun e => by cases e),
        fun r hr hne => by cases hr; exact absurd rfl hne⟩
    · rw [if_neg hc]
      have hne := h.pid_ne (show (k.proc np).state ≠ .unused by rw [hzo]; decide)
      refine ⟨iff_of_false (fun e => hne (WaitOut.ret.inj e)) ?_,
        fun e => absurd (WaitOut.ret.inj e) hne, (fun e => by cases e),
        fun r hr _ => ⟨np, hp, hzo, WaitOut.ret.inj hr, rfl⟩⟩
      rintro (h1 | ⟨h2, -⟩ | ⟨-, h3⟩)
      · exact h1 np hp
      · exact h2 np hp hzo
      · exact hc h3

/-- `waitx` takes the steps of `wait`; it also reads the child's times, nothing more. -/
theorem waitx_eq_wait (addr : UInt64) (copyOk : Bool) :
    (waitx b p addr copyOk k).1 = (wait b p addr copyOk k).1 ∧
      (waitx b p addr copyOk k).2.2 = (wait b p addr copyOk k).2 := by
  unfold waitx wait
  rcases zombieChild p k with _ | np <;> dsimp only <;> split_ifs <;> exact ⟨rfl, rfl⟩

theorem waitx_spec (h : TableOk k) (addr : UInt64) (copyOk : Bool) :
    WaitSpec p addr copyOk k (waitx b p addr copyOk k).1 (waitx b p addr copyOk k).2.2 := by
  rw [(waitx_eq_wait addr copyOk).1, (waitx_eq_wait addr copyOk).2]
  exact wait_spec h addr copyOk

/-- **Families and `wait`.**  In every state a kernel of any build reaches on any number of
CPUs, while at most `2^31` pids have been handed out: used slots have distinct pids; every used
slot but `initproc` has a parent that is neither UNUSED nor ZOMBIE, so every ZOMBIE has a parent
that can reap it; and one pass of `wait` or `waitx` by any process meets `WaitSpec`. -/
theorem family_and_wait {ncpu : Nat} (h : Reachable b ncpu k) (hpid : k.nextpid ≤ 2 ^ 31) :
    (∀ i j, (k.proc i).state ≠ .unused → (k.proc j).state ≠ .unused →
      (k.proc i).pid = (k.proc j).pid → i = j) ∧
    (∀ i, i ≠ initproc → (k.proc i).state ≠ .unused →
      ∃ q, (k.proc i).parent = some q ∧ (k.proc q).state ≠ .unused ∧
        (k.proc q).state ≠ .zombie) ∧
    ∀ p addr copyOk,
      WaitSpec p addr copyOk k (wait b p addr copyOk k).1 (wait b p addr copyOk k).2 ∧
      WaitSpec p addr copyOk k (waitx b p addr copyOk k).1 (waitx b p addr copyOk k).2.2 := by
  have ht := h.tableOk hpid
  refine ⟨ht.pid_inj, fun i hi hu => ?_,
    fun p addr copyOk => ⟨wait_spec ht addr copyOk, waitx_spec ht addr copyOk⟩⟩
  obtain ⟨q, hq⟩ := Option.ne_none_iff_exists'.mp (ht.has_parent i hi hu)
  exact ⟨q, hq, ht.parent_live i q hq⟩

set_option maxRecDepth 4000 in
/-- After `waitxRun` the child in slot `1` is a ZOMBIE of `initproc`, whose `wait` then meets
`WaitSpec`. -/
theorem family_and_wait_zombie :
    ∃ k, Reachable .DEFAULT 1 k ∧ k.nextpid ≤ 2 ^ 31 ∧ (k.proc 1).state = .zombie ∧
      (k.proc 1).parent = some initproc ∧
      WaitSpec initproc 0 true k (wait .DEFAULT initproc 0 true k).1 (wait .DEFAULT initproc 0 true k).2 := by
  obtain ⟨k, hr, hn, hz, hp⟩ : ∃ k, Reachable .DEFAULT 1 k ∧ k.nextpid ≤ 2 ^ 31 ∧
      (k.proc 1).state = .zombie ∧ (k.proc 1).parent = some initproc :=
    LTS.exists_reachable_of_run waitxRun (by decide)
  exact ⟨k, hr, hn, hz, hp, ((family_and_wait hr hn).2.2 initproc 0 true).1⟩

end Wait

end Xv6Sched
