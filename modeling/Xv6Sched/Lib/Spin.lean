import Mathlib.Logic.Function.Basic
import Mathlib.Data.List.Nodup

/-!
# Xv6Sched.Lib.Spin — the spinlocks one CPU holds

`acquire` and `release` of a spinlock, on the set of locks one CPU holds, `held : ι → Bool`:
`acquire` panics (`none`) on a lock the CPU holds already (`holding`), and `release` on a lock it
does not hold.  Locks held by other CPUs are not part of this state: spinning on one is waiting,
not a step of this CPU.

`only c`: the CPU holds the lock of `c` and no other.  A loop that takes the lock of each element
it visits and keeps only its current candidate's ends holding `only` of what it found
(`foldlM_locked`), given that one pass does so from `only` of the candidate (`acquire_only`,
`release_taken`, `release_displaced`).
-/

namespace Spin

variable {ι : Type} [DecidableEq ι]

/-- `acquire(lk)`; `none` is `panic("acquire")`. -/
def acquire (held : ι → Bool) (i : ι) : Option (ι → Bool) :=
  if held i then none else some (Function.update held i true)

/-- `release(lk)`; `none` is `panic("release")`. -/
def release (held : ι → Bool) (i : ι) : Option (ι → Bool) :=
  if held i then some (Function.update held i false) else none

/-- The lock of `c`, if any, and no other. -/
def only (c : Option ι) (j : ι) : Bool := decide (c = some j)

theorem only_none : only (none : Option ι) = fun _ => false := by
  funext j
  simp [only]

variable {c : Option ι} {i j : ι}

/-- Taking a lock that is not the candidate's. -/
theorem acquire_only (hc : c ≠ some i) : acquire (only c) i = some (Function.update (only c) i true) := by
  unfold acquire
  rw [if_neg (by simpa [only] using hc)]

theorem update_only_none (i : ι) : Function.update (only none) i true = only (some i) := by
  funext j
  by_cases hj : j = i
  · subst hj
    simp [only]
  · simp [only, hj, Ne.symm hj]

/-- The visited element is passed over: its lock goes back. -/
theorem release_taken (hc : c ≠ some i) : release (Function.update (only c) i true) i = some (only c) := by
  unfold release
  rw [Function.update_self, if_pos rfl, Function.update_idem,
    Function.update_eq_self_iff.mpr (by simpa [only] using hc)]

/-- The visited element displaces the candidate `j`, whose lock goes back. -/
theorem release_displaced (hij : i ≠ j) :
    release (Function.update (only (some j)) i true) j = some (only (some i)) := by
  unfold release
  rw [Function.update_of_ne (Ne.symm hij), if_pos (by simp [only])]
  congr 1
  funext k
  by_cases hk : k = j
  · subst hk
    simp [only, hij]
  · rw [Function.update_of_ne hk]
    by_cases hki : k = i
    · subst hki
      simp [only]
    · simp [only, hki, Ne.symm hk, Ne.symm hki]

/-- **Loop rule** for a scan that keeps its candidate `get s` locked.  If one pass from `only` of
the candidate, over an element not the candidate, makes the pass of the unlocked scan `step` and
holds `only` of the new candidate, with the invariant `I` kept, then over a list without repeats
that does not hold the candidate, the whole loop does. -/
theorem foldlM_locked {σ : Type} (get : σ → Option ι) (I : σ → Prop) (step : σ → ι → σ)
    (lstep : σ × (ι → Bool) → ι → Option (σ × (ι → Bool)))
    (hstep : ∀ s i, I s → get s ≠ some i →
      lstep (s, only (get s)) i = some (step s i, only (get (step s i))) ∧ I (step s i))
    (hget : ∀ s i, get (step s i) = get s ∨ get (step s i) = some i) :
    ∀ {l : List ι} {s : σ}, l.Nodup → I s → (∀ j, get s = some j → j ∉ l) →
      l.foldlM lstep (s, only (get s)) = some (l.foldl step s, only (get (l.foldl step s)))
  | [], _, _, _, _ => rfl
  | i :: l, s, hl, hI, hs => by
    obtain ⟨hi, hnd⟩ := List.nodup_cons.mp hl
    have hne : get s ≠ some i := fun e => hs i e List.mem_cons_self
    obtain ⟨h1, hI1⟩ := hstep s i hI hne
    -- the new candidate is the old one or `i`, and neither comes again
    have hs1 : ∀ j, get (step s i) = some j → j ∉ l := by
      intro j hj
      rcases hget s i with e | e
      · exact fun hjl => hs j (e ▸ hj) (List.mem_cons_of_mem i hjl)
      · rw [e] at hj
        exact Option.some.inj hj ▸ hi
    rw [List.foldlM_cons, h1, List.foldl_cons]
    exact foldlM_locked get I step lstep hstep hget hnd hI1 hs1

end Spin
