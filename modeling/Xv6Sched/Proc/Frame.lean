import Xv6Sched.Proc.Spec

/-!
# Xv6Sched.Proc.Frame — what an action does to the slots it is not about

A process acting on the table (a system call, a trap) changes its own slot, and changes the
state of another slot only by waking it: SLEEPING becomes RUNNABLE (`Woken`).  The exceptions
are the slot `allocproc` takes, which was UNUSED, and the ZOMBIE child `wait` frees.  This
module states that frame for every operation, together with what the operations do to
`parent` and `pid`, and that every scheduler dispatches a RUNNABLE process.
-/

namespace Xv6Sched

open Kernel

variable {b : Build}

/-! ### Waking -/

/-- `q` is `p` with its state kept, or `p` woken from SLEEPING to RUNNABLE. -/
def Woken (q p : Proc) : Prop := q.state = p.state ∨ (p.state = .sleeping ∧ q.state = .runnable)

namespace Woken

variable {r q p : Proc}

theorem refl (p : Proc) : Woken p p := Or.inl rfl

theorem trans (h1 : Woken r q) (h2 : Woken q p) : Woken r p := by
  rcases h1 with h1 | ⟨h1, h1'⟩ <;> rcases h2 with h2 | ⟨h2, h2'⟩
  · exact Or.inl (h1.trans h2)
  · exact Or.inr ⟨h2, h1 ▸ h2'⟩
  · exact Or.inr ⟨h2 ▸ h1, h1'⟩
  · -- `q` cannot be both RUNNABLE and SLEEPING
    rw [h2'] at h1; cases h1

theorem of_state (h : q.state = p.state) : Woken q p := Or.inl h

theorem wakeOne (h : p.state = .sleeping) (t : UInt32) : Woken (Xv6Sched.wakeOne b t p) p :=
  Or.inr ⟨h, wakeOne_state p t⟩

/-- Waking changes none of the states the invariants single out. -/
theorem state_eq (h : Woken q p) (hs : p.state ≠ .sleeping) : q.state = p.state := by
  rcases h with h | ⟨h, -⟩
  · exact h
  · exact absurd h hs

theorem unused_iff (h : Woken q p) : q.state = .unused ↔ p.state = .unused := by
  rcases h with h | ⟨h1, h2⟩
  · rw [h]
  · rw [h1, h2]; simp

theorem zombie_iff (h : Woken q p) : q.state = .zombie ↔ p.state = .zombie := by
  rcases h with h | ⟨h1, h2⟩
  · rw [h]
  · rw [h1, h2]; simp

/-- A conditional wake-up of a slot that is already `Woken`. -/
theorem ite_wake (h : Woken q p) (c : Prop) [Decidable c] (hc : c → q.state = .sleeping)
    (t : UInt32) : Woken (if c then Xv6Sched.wakeOne b t q else q) p := by
  split
  · rename_i h1
    exact (Woken.wakeOne (hc h1) t).trans h
  · exact h

theorem running_iff (h : Woken q p) : q.state = .running ↔ p.state = .running := by
  rcases h with h | ⟨h1, h2⟩
  · rw [h]
  · rw [h1, h2]; simp

end Woken

/-! ### Operations that only wake -/

section Wake

variable (k : Kernel)

theorem wakeup_parent (me : Option (Fin NPROC)) (ch : Chan) (j : Fin NPROC) :
    ((wakeup b me ch k).proc j).parent = (k.proc j).parent := by
  rw [wakeup_proc]; split_ifs <;> simp

theorem wakeup_pid (me : Option (Fin NPROC)) (ch : Chan) (j : Fin NPROC) :
    ((wakeup b me ch k).proc j).pid = (k.proc j).pid := by
  rw [wakeup_proc]; split_ifs <;> simp

theorem wakeup_woken (me : Option (Fin NPROC)) (ch : Chan) (j : Fin NPROC) :
    Woken ((wakeup b me ch k).proc j) (k.proc j) := by
  rw [wakeup_proc]
  split_ifs with h1 h2
  · exact Woken.refl _
  · exact Woken.wakeOne h2.1 _
  · exact Woken.refl _

theorem reparent_parent (p j : Fin NPROC) :
    ((reparent b p k).proc j).parent =
      if (k.proc j).parent = some p then some initproc else (k.proc j).parent := by
  rw [reparent_proc, reparentSlot]
  split_ifs <;> simp_all

theorem reparent_pid (p j : Fin NPROC) : ((reparent b p k).proc j).pid = (k.proc j).pid := by
  rw [reparent_proc, reparentSlot]
  split_ifs <;> simp [Proc.setParent]

theorem reparent_woken (p j : Fin NPROC) : Woken ((reparent b p k).proc j) (k.proc j) := by
  rw [reparent_proc, reparentSlot]
  -- the slot is first moved to `initproc`, which keeps its state, then possibly woken
  have hq : Woken (if (k.proc j).parent = some p then (k.proc j).setParent (some initproc)
      else k.proc j) (k.proc j) := by
    split
    · exact Woken.of_state rfl
    · exact Woken.refl _
  exact hq.ite_wake _ (fun h => h.2.2.1) _

/-- `kill(pid)` changes one slot: `killed = 1`, and SLEEPING becomes RUNNABLE. -/
theorem kill_frame (pid : Int32) (j : Fin NPROC) :
    ((kill pid k).2.proc j).parent = (k.proc j).parent ∧
      ((kill pid k).2.proc j).pid = (k.proc j).pid ∧ Woken ((kill pid k).2.proc j) (k.proc j) := by
  unfold kill
  split
  · exact ⟨rfl, rfl, Woken.refl _⟩
  · rename_i i _
    simp only [setProc_apply]
    split
    · subst j
      split
      · rename_i h; exact ⟨rfl, rfl, Or.inr ⟨h, rfl⟩⟩
      · exact ⟨rfl, rfl, Woken.of_state rfl⟩
    · exact ⟨rfl, rfl, Woken.refl _⟩

@[simp] theorem kill_cpus (pid : Int32) : (kill pid k).2.cpus = k.cpus := by
  unfold kill; split <;> rfl

@[simp] theorem kill_nextpid (pid : Int32) : (kill pid k).2.nextpid = k.nextpid := by
  unfold kill; split <;> rfl

end Wake

/-! ### `exit` -/

section Exit

variable {k k' : Kernel} {p : Fin NPROC} {status : Int32}

/-- **`exit(status)` by `p`.**  Its children go to `initproc`, `p` becomes ZOMBIE, and every
other slot is at most woken. -/
theorem exit_spec (h : exit b p status k = some k') :
    p ≠ initproc ∧ k'.nextpid = k.nextpid ∧ k'.cpus = k.cpus ∧ (k'.proc p).state = .zombie ∧
      ∀ j, (k'.proc j).pid = (k.proc j).pid ∧
        (k'.proc j).parent =
          (if (k.proc j).parent = some p then some initproc else (k.proc j).parent) ∧
        (j ≠ p → Woken (k'.proc j) (k.proc j)) := by
  unfold exit at h
  split at h
  · cases h
  · rename_i hp
    simp only [Option.some.injEq] at h
    subst h
    refine ⟨hp, by simp, by simp, by simp, fun j => ?_⟩
    rw [setProc_apply]
    split
    · subst j
      exact ⟨by simp [reparent_pid], by simp [reparent_parent],
        fun h => absurd rfl h⟩
    · rename_i hj
      exact ⟨by rw [wakeup_pid, reparent_pid], by rw [wakeup_parent, reparent_parent],
        fun _ => (wakeup_woken _ _ _ j).trans (reparent_woken _ _ _)⟩

end Exit

/-! ### `allocproc` -/

section Alloc

variable {k k1 : Kernel} {mem : Bool}

/-- A successful `allocproc` takes an UNUSED slot and gives it the next pid and state USED. -/
theorem allocproc_some {np : Fin NPROC} (h : allocproc b mem k = (some np, k1)) :
    (k.proc np).state = .unused ∧ k1.nextpid = k.nextpid + 1 ∧ k1.cpus = k.cpus ∧
      (k1.proc np).state = .used ∧ (k1.proc np).pid = k.nextpid.toInt32 ∧
      (k1.proc np).parent = (k.proc np).parent ∧ ∀ j, j ≠ np → k1.proc j = k.proc j := by
  unfold allocproc at h
  split at h
  · cases h
  · rename_i i hi
    simp only [allocpid] at h
    split at h
    · simp only [Prod.mk.injEq, Option.some.injEq] at h
      obtain ⟨rfl, rfl⟩ := h
      have hu := Scan.firstFin_spec hi
      refine ⟨by simpa using hu, rfl, rfl, by simp, by simp, by simp, fun j hj => ?_⟩
      rw [setProc_ne _ _ _ _ hj]
    · simp at h

/-- A failed `allocproc` leaves every slot as it was but possibly one UNUSED slot, which it
frees again. -/
theorem allocproc_none (h : allocproc b mem k = (none, k1)) :
    k.nextpid ≤ k1.nextpid ∧ k1.cpus = k.cpus ∧
      ∀ j, k1.proc j = k.proc j ∨
        ((k.proc j).state = .unused ∧ (k1.proc j).state = .unused ∧ (k1.proc j).parent = none) := by
  unfold allocproc at h
  split at h
  · simp only [Prod.mk.injEq, true_and] at h
    subst h
    exact ⟨le_refl _, rfl, fun j => Or.inl rfl⟩
  · rename_i i hi
    simp only [allocpid] at h
    split at h
    · simp at h
    · simp only [Prod.mk.injEq, true_and] at h
      subst h
      refine ⟨by simp, rfl, fun j => ?_⟩
      rw [setProc_apply]
      split
      · subst j
        exact Or.inr ⟨by simpa using Scan.firstFin_spec hi, rfl, rfl⟩
      · exact Or.inl rfl

end Alloc

/-! ### The schedulers dispatch RUNNABLE processes -/

section Pick

variable (k : Kernel)

theorem defaultPick_runnable {pos : Nat} {i : Fin NPROC} (h : defaultPick k pos = some i) :
    (k.proc i).state = .runnable := by
  simpa [isRunnable] using Scan.firstFrom_spec h

theorem rrPick_runnable {rr : Nat} {i : Fin NPROC} (h : rrPick k rr = some i) :
    (k.proc i).state = .runnable := by
  simpa [isRunnable] using Scan.firstFrom_spec h

theorem fcfsPick_runnable {i : Fin NPROC} (h : fcfsPick k = some i) :
    (k.proc i).state = .runnable := by
  unfold fcfsPick at h
  dsimp only at h
  split at h
  · cases h
  · refine Scan.foldl_choice Prod.snd (fun i => (k.proc i).state = .runnable) (fcfsStep k)
      (fun acc j => ?_) _ _ (by simp) i h
    unfold fcfsStep
    dsimp only
    split_ifs with h1 <;> simp_all

theorem pbsPick_runnable {i : Fin NPROC} (h : pbsPick k = some i) :
    (k.proc i).state = .runnable := by
  refine Scan.foldl_choice id (fun i => (k.proc i).state = .runnable) (pbsStep k)
    (fun acc j => ?_) _ _ (by simp) i h
  unfold pbsStep
  split
  · rename_i hj
    split
    · exact Or.inr ⟨rfl, hj⟩
    · split
      · exact Or.inr ⟨rfl, hj⟩
      · exact Or.inl rfl
  · exact Or.inl rfl

theorem queueScan_runnable {q : Int32} {i : Fin NPROC} (h : (queueScan k q).2 = some i) :
    (k.proc i).state = .runnable := by
  refine Scan.foldl_choice Prod.snd (fun i => (k.proc i).state = .runnable) (queueStep q k)
    (fun acc j => ?_) _ _ (by simp) i h
  unfold queueStep
  dsimp only
  split_ifs with h1 <;> simp_all

theorem mlfqQueues_runnable {i : Fin NPROC} (h : mlfqQueues k = some i) :
    (k.proc i).state = .runnable := by
  obtain ⟨q, -, hq⟩ := List.exists_of_findSome?_eq_some h
  dsimp only at hq
  split at hq
  · exact queueScan_runnable k hq
  · cases hq

end Pick

end Xv6Sched
