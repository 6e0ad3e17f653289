import Mathlib

/-!
# Xv6Sched.Lib.Ring — a ring of `N` cells addressed by free-running counters

A bounded FIFO kept as an array `data : Fin N → α` and two counters: the oldest cell is at
counter `r`, and `len` cells follow it.  Counter `c` lives in cell `c % N` (`cell`), so the
counters may run on past `N`, and may wrap at any modulus that `N` divides (`cell_mod`).
`view data r len` is the queue the ring holds, oldest first.  Writing at counter `r + len` when
`len < N` appends to the queue (`view_push`); taking the cell of `r` and advancing `r` removes
its head (`view_pop`).
-/

namespace Ring

variable {α : Type} {N : Nat} [NeZero N]

/-- The cell of counter value `c`: `data[c % N]`. -/
def cell (N : Nat) [NeZero N] (c : Nat) : Fin N := ⟨c % N, Nat.mod_lt _ (Nat.pos_of_neZero N)⟩

/-- The `len` cells from counter `r` on, oldest first. -/
def view (data : Fin N → α) (r len : Nat) : List α :=
  (List.range len).map fun j => data (cell N (r + j))

@[simp] theorem length_view (data : Fin N → α) (r len : Nat) : (view data r len).length = len := by
  simp [view]

@[simp] theorem view_zero (data : Fin N → α) (r : Nat) : view data r 0 = [] := rfl

/-- A counter that wrapped at a multiple of `N` still names its cell. -/
theorem cell_mod {M c : Nat} (h : N ∣ M) : cell N (c % M) = cell N c :=
  Fin.ext (Nat.mod_mod_of_dvd c h)

theorem cell_congr {c c' : Nat} (h : c % N = c' % N) : cell N c = cell N c' := Fin.ext h

/-- Two cells less than `N` counters apart are different. -/
theorem cell_ne {r j len : Nat} (hj : j < len) (hlen : len < N) : cell N (r + j) ≠ cell N (r + len) := by
  intro h
  have h' := congrArg Fin.val h
  simp only [cell] at h'
  have := Nat.sub_mod_eq_zero_of_mod_eq h'.symm
  rw [show r + len - (r + j) = len - j by omega] at this
  have := Nat.le_of_dvd (by omega) (Nat.dvd_of_mod_eq_zero this)
  omega

/-- Writing the cell after the last one, while there is room, appends to the queue. -/
theorem view_push {data : Fin N → α} {r len : Nat} (x : α) (hlen : len < N) :
    view (Function.update data (cell N (r + len)) x) r (len + 1) = view data r len ++ [x] := by
  simp only [view, List.range_succ, List.map_append, List.map_cons, List.map_nil,
    Function.update_self]
  congr 1
  apply List.map_congr_left
  intro j hj
  exact Function.update_of_ne (cell_ne (List.mem_range.mp hj) hlen) _ _

/-- The oldest cell is the head of the queue; advancing `r` drops it. -/
theorem view_pop (data : Fin N → α) (r len : Nat) :
    view data r (len + 1) = data (cell N r) :: view data (r + 1) len := by
  simp only [view, List.range_succ_eq_map, List.map_cons, List.map_map, Nat.add_zero]
  congr 1
  apply List.map_congr_left
  intro j _
  simp only [Function.comp, Nat.succ_eq_add_one]
  rw [Nat.add_comm j 1, Nat.add_assoc]

/-- The cells of `a + b` counters from `r`: the first `a`, then the `b` after them. -/
theorem view_append (data : Fin N → α) (r a b : Nat) :
    view data r (a + b) = view data r a ++ view data (r + a) b := by
  simp only [view, List.range_add, List.map_append, List.map_map]
  congr 1
  apply List.map_congr_left
  intro j _
  simp only [Function.comp, Nat.add_assoc]

/-- Writing a cell at least `len` and less than `N` counters past `r` leaves the first `len`. -/
theorem view_update_of_le {data : Fin N → α} {r len j : Nat} (x : α) (hj : len ≤ j) (hjN : j < N) :
    view (Function.update data (cell N (r + j)) x) r len = view data r len := by
  apply List.map_congr_left
  intro i hi
  exact Function.update_of_ne (cell_ne (Nat.lt_of_lt_of_le (List.mem_range.mp hi) hj) hjN) _ _

theorem view_congr {data : Fin N → α} {r r' len : Nat} (h : r % N = r' % N) :
    view data r len = view data r' len := by
  apply List.map_congr_left
  intro j _
  exact congrArg data (cell_congr (by rw [Nat.add_mod, h, ← Nat.add_mod]))

end Ring
