import Mathlib.Order.Basic

/-!
# Xv6Sched.Lib.Lts — transition systems given by a partial step function

A system is a step function `next : σ → α → Option σ` (label `α`, `none` when the label is not
enabled) and an initial state.  `Reachable next init s`: `s` is reached from `init` by finitely
many enabled steps.  Two rules carry every result about such a system:

* `Reachable.rec_inv`: an invariant that holds initially and that every enabled step preserves
  holds in every reachable state;
* `reachable_of_run`: a list of labels replayed by `run` (a computation `decide` can check)
  reaches its final state.

Nothing here is specific to one system.
-/

namespace LTS

variable {σ α : Type} (next : σ → α → Option σ) (init : σ)

/-- States reached from `init` by enabled steps. -/
inductive Reachable : σ → Prop
  | init : Reachable init
  | step {s s' : σ} (a : α) : Reachable s → next s a = some s' → Reachable s'

/-- Replay a list of labels; `none` as soon as one is not enabled. -/
def run : σ → List α → Option σ
  | s, [] => some s
  | s, a :: as => (next s a).bind fun s' => run s' as

@[simp] theorem run_nil (s : σ) : run next s [] = some s := rfl

theorem run_cons (s : σ) (a : α) (as : List α) :
    run next s (a :: as) = (next s a).bind fun s' => run next s' as := rfl

variable {next init}

/-- **Invariant rule.** -/
theorem Reachable.rec_inv {P : σ → Prop} (h0 : P init)
    (hstep : ∀ s a s', Reachable next init s → P s → next s a = some s' → P s') :
    ∀ {s}, Reachable next init s → P s := by
  intro s h
  induction h with
  | init => exact h0
  | step a hr hs ih => exact hstep _ a _ hr ih hs

/-- The invariant rule for an invariant that needs no reachability of the pre-state. -/
theorem Reachable.inv {P : σ → Prop} (h0 : P init)
    (hstep : ∀ s a s', P s → next s a = some s' → P s') :
    ∀ {s}, Reachable next init s → P s :=
  Reachable.rec_inv h0 fun s a s' _ hP hs => hstep s a s' hP hs

/-- A guarded invariant `G s → P s` where the guard `G` only grows weaker backwards along a
step (`G s' → G s`), such as "the counter has not wrapped yet". -/
theorem Reachable.inv_guard {G P : σ → Prop} (h0 : G init → P init)
    (hG : ∀ s a s', next s a = some s' → G s' → G s)
    (hstep : ∀ s a s', G s' → P s → next s a = some s' → P s') :
    ∀ {s}, Reachable next init s → G s → P s :=
  Reachable.inv h0 fun s a s' hP hs hg => hstep s a s' hg (hP (hG s a s' hs hg)) hs

theorem reachable_run {s s' : σ} :
    ∀ {as : List α}, Reachable next init s → run next s as = some s' → Reachable next init s'
  | [], hs, h => by
    simp only [run_nil, Option.some.injEq] at h
    exact h ▸ hs
  | a :: as, hs, h => by
    rw [run_cons] at h
    cases hn : next s a with
    | none => simp [hn] at h
    | some s1 =>
      rw [hn, Option.bind_some] at h
      exact reachable_run (Reachable.step a hs hn) h

/-- A replayed list of labels reaches its final state. -/
theorem reachable_of_run {as : List α} {s : σ} (h : run next init as = some s) :
    Reachable next init s :=
  reachable_run Reachable.init h

/-- A replayed list of labels whose final state satisfies the decidable `P` exhibits a
reachable state satisfying `P`. -/
theorem exists_reachable_of_run {P : σ → Prop} [DecidablePred P] (as : List α)
    (h : (run next init as).any (fun s => decide (P s)) = true) :
    ∃ s, Reachable next init s ∧ P s := by
  cases hr : run next init as with
  | none => rw [hr] at h; cases h
  | some s =>
    rw [hr, Option.any_some] at h
    exact ⟨s, reachable_of_run hr, of_decide_eq_true h⟩

end LTS
