import Mathlib.Logic.Function.Basic
import Mathlib.Data.List.Basic

/-!
# Xv6Sched.Lib.Crash — block writes, programs that issue them, and crashes

A disk is a map `d : β → γ` from block numbers to contents, and `applyWrites d ws` performs the
block writes `ws` in order, each of them atomic.  A program is a list of steps; a step looks at
the disk as it is when it runs and issues one block write, so `trace d p` is the sequence of
writes `p` issues started on `d`.  A crash after `k` of those writes leaves `crashAt d p k`: the
effect of the first `k` writes and nothing of the rest.

What a block holds after writes (`applyWrites_of_not_mem`, `applyWrites_of_mem`,
`applyWrites_mem_or`); writes performed again over a disk that differs from the first only where
they write give what they gave (`applyWrites_congr`, `applyWrites_take_absorb`), so a program that
issues the same writes when it is started again after a crash ends where it would have ended
(`run_crashAt`); a crash in a sequence of programs is a crash in one of them (`crashAt_append`);
and a program whose steps read only blocks none of them writes issues the writes its steps
compute from the initial disk (`trace_eq_map`).
-/

namespace Crash

variable {β γ : Type} [DecidableEq β]

/-! ### Block writes -/

/-- The block writes `ws`, performed in order. -/
def applyWrites (d : β → γ) (ws : List (β × γ)) : β → γ :=
  ws.foldl (fun d w => Function.update d w.1 w.2) d

@[simp] theorem applyWrites_nil (d : β → γ) : applyWrites d [] = d := rfl

@[simp] theorem applyWrites_cons (d : β → γ) (w : β × γ) (ws : List (β × γ)) :
    applyWrites d (w :: ws) = applyWrites (Function.update d w.1 w.2) ws := rfl

theorem applyWrites_append (d : β → γ) (ws vs : List (β × γ)) :
    applyWrites d (ws ++ vs) = applyWrites (applyWrites d ws) vs :=
  List.foldl_append ..

/-- A block no write touches keeps its contents. -/
theorem applyWrites_of_not_mem {ws : List (β × γ)} {a : β} (h : a ∉ ws.map Prod.fst)
    (d : β → γ) : applyWrites d ws a = d a := by
  induction ws generalizing d with
  | nil => rfl
  | cons w ws ih =>
    simp only [List.map_cons, List.mem_cons, not_or] at h
    rw [applyWrites_cons, ih h.2, Function.update_of_ne h.1]

/-- After writes to distinct blocks, a block holds what was written to it. -/
theorem applyWrites_of_mem {ws : List (β × γ)} (hnd : (ws.map Prod.fst).Nodup) {a : β} {v : γ}
    (h : (a, v) ∈ ws) (d : β → γ) : applyWrites d ws a = v := by
  induction ws generalizing d with
  | nil => cases h
  | cons w ws ih =>
    rw [List.map_cons, List.nodup_cons] at hnd
    rw [applyWrites_cons]
    rcases List.mem_cons.mp h with rfl | h
    · rw [applyWrites_of_not_mem hnd.1]
      exact Function.update_self ..
    · exact ih hnd.2 h _

/-- A block holds what it held, or what one of the writes wrote to it. -/
theorem applyWrites_mem_or (d : β → γ) (ws : List (β × γ)) (a : β) :
    applyWrites d ws a = d a ∨ (a, applyWrites d ws a) ∈ ws := by
  induction ws generalizing d with
  | nil => exact Or.inl rfl
  | cons w ws ih =>
    rw [applyWrites_cons]
    rcases ih (Function.update d w.1 w.2) with h | h
    · by_cases e : a = w.1
      · -- the last write to `a` is `w` itself
        right
        rw [h, e, Function.update_self]
        exact List.mem_cons_self
      · left
        rw [h, Function.update_of_ne e]
    · exact Or.inr (List.mem_cons_of_mem _ h)

/-- Two disks that agree wherever `ws` does not write agree after `ws`. -/
theorem applyWrites_congr {ws : List (β × γ)} {d1 d2 : β → γ}
    (h : ∀ a, a ∉ ws.map Prod.fst → d1 a = d2 a) : applyWrites d1 ws = applyWrites d2 ws := by
  induction ws generalizing d1 d2 with
  | nil => funext a; exact h a (by simp)
  | cons w ws ih =>
    apply ih
    intro a ha
    show Function.update d1 w.1 w.2 a = Function.update d2 w.1 w.2 a
    by_cases e : a = w.1
    · rw [e, Function.update_self, Function.update_self]
    · rw [Function.update_of_ne e, Function.update_of_ne e]
      exact h a (by simp [e, ha])

/-- Writes performed over a disk that already holds a prefix of them give what they give. -/
theorem applyWrites_take_absorb (d : β → γ) (ws : List (β × γ)) (k : Nat) :
    applyWrites (applyWrites d (ws.take k)) ws = applyWrites d ws := by
  apply applyWrites_congr
  intro a ha
  apply applyWrites_of_not_mem
  intro hk
  rw [List.map_take] at hk
  exact ha (List.mem_of_mem_take hk)

/-! ### Programs and crashes -/

/-- The writes a program issues when it starts on `d`: each step sees the writes before it. -/
def trace : (β → γ) → List ((β → γ) → β × γ) → List (β × γ)
  | _, [] => []
  | d, s :: p => s d :: trace (Function.update d (s d).1 (s d).2) p

/-- The disk a program leaves when it runs to its end. -/
def run (d : β → γ) (p : List ((β → γ) → β × γ)) : β → γ := applyWrites d (trace d p)

/-- The disk a crash after the first `k` writes of `p` leaves. -/
def crashAt (d : β → γ) (p : List ((β → γ) → β × γ)) (k : Nat) : β → γ :=
  applyWrites d ((trace d p).take k)

variable {d : β → γ} {p q : List ((β → γ) → β × γ)}

@[simp] theorem length_trace (d : β → γ) (p : List ((β → γ) → β × γ)) :
    (trace d p).length = p.length := by
  induction p generalizing d with
  | nil => rfl
  | cons s p ih => simp [trace, ih]

theorem trace_append (d : β → γ) (p q : List ((β → γ) → β × γ)) :
    trace d (p ++ q) = trace d p ++ trace (run d p) q := by
  induction p generalizing d with
  | nil => rfl
  | cons s p ih => simp [trace, ih, run]

theorem run_append (d : β → γ) (p q : List ((β → γ) → β × γ)) :
    run d (p ++ q) = run (run d p) q := by
  rw [run, trace_append, applyWrites_append]
  rfl

/-- One step run to its end. -/
theorem run_singleton (d : β → γ) (s : (β → γ) → β × γ) :
    run d [s] = Function.update d (s d).1 (s d).2 := rfl

/-- A crash after every write has been issued is no crash. -/
theorem crashAt_of_length_le {k : Nat} (h : p.length ≤ k) : crashAt d p k = run d p := by
  rw [crashAt, List.take_of_length_le (by rw [length_trace]; exact h)]
  rfl

@[simp] theorem crashAt_zero (d : β → γ) (p : List ((β → γ) → β × γ)) : crashAt d p 0 = d := by
  simp [crashAt]

/-- A block no write of `p` touches keeps its contents through a crash of `p`. -/
theorem crashAt_of_not_mem {a : β} (h : a ∉ (trace d p).map Prod.fst) (k : Nat) :
    crashAt d p k a = d a := by
  apply applyWrites_of_not_mem
  intro hk
  rw [List.map_take] at hk
  exact h (List.mem_of_mem_take hk)

/-- Through a crash of `p`, a block holds what it held or what `p` wrote to it. -/
theorem crashAt_mem_or (d : β → γ) (p : List ((β → γ) → β × γ)) (k : Nat) (a : β) :
    crashAt d p k a = d a ∨ (a, crashAt d p k a) ∈ trace d p := by
  rcases applyWrites_mem_or d ((trace d p).take k) a with h | h
  · exact Or.inl h
  · exact Or.inr (List.mem_of_mem_take h)

/-- A crash in `p ++ q` is a crash in `p`, or one in `q` after `p` ran to its end. -/
theorem crashAt_append (d : β → γ) (p q : List ((β → γ) → β × γ)) (k : Nat) :
    crashAt d (p ++ q) k =
      if k ≤ p.length then crashAt d p k else crashAt (run d p) q (k - p.length) := by
  rw [crashAt, trace_append, List.take_append, applyWrites_append, length_trace]
  split
  · rename_i hk
    rw [Nat.sub_eq_zero_of_le hk, List.take_zero, applyWrites_nil]
    rfl
  · rename_i hk
    rw [List.take_of_length_le (by rw [length_trace]; omega)]
    rfl

/-- **Replay.**  A program that, started again on the disk a crash left, issues the writes it
issued the first time ends where its first run would have ended. -/
theorem run_crashAt {k : Nat} (h : trace (crashAt d p k) p = trace d p) :
    run (crashAt d p k) p = run d p := by
  rw [run, h, crashAt, applyWrites_take_absorb]
  rfl

/-- A program whose steps read only blocks in `R` and write outside `R` issues, on any disk, the
writes its steps compute from that disk. -/
theorem trace_eq_map (R : β → Prop)
    (hread : ∀ s ∈ p, ∀ d1 d2 : β → γ, (∀ a, R a → d1 a = d2 a) → s d1 = s d2)
    (hwrite : ∀ s ∈ p, ∀ d : β → γ, ¬ R (s d).1) (d : β → γ) : trace d p = p.map (· d) := by
  induction p generalizing d with
  | nil => rfl
  | cons s p ih =>
    have hread' := fun s' hs' => hread s' (List.mem_cons_of_mem s hs')
    have hwrite' := fun s' hs' => hwrite s' (List.mem_cons_of_mem s hs')
    rw [trace, List.map_cons, ih hread' hwrite']
    congr 1
    -- the write of `s` is outside `R`, so the later steps read what they read on `d`
    refine List.map_congr_left fun s' hs' => hread' s' hs' _ _ fun a ha => ?_
    have hne : a ≠ (s d).1 := fun e => hwrite s List.mem_cons_self d (e ▸ ha)
    exact Function.update_of_ne hne _ _

end Crash
