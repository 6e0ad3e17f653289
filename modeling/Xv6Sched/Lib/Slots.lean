import Xv6Sched.Lib.Scan

/-!
# Xv6Sched.Lib.Slots — a table that fills its lowest free slot

A table `Fin n → Option α` of slots, each free (`none`) or holding a value, whose allocation
takes the lowest free slot: the rule of a descriptor table.  `alloc t a` puts `a` into the
lowest free slot and returns the slot, or `none` when every slot is taken.

The lemmas say where an allocation lands and what it leaves alone: on a free slot with every
slot below it taken (`alloc_eq_some`), so exactly at `i` when that holds of `i`
(`alloc_lowest`) and never inside a prefix of taken slots (`le_of_alloc`); it fails only on a
full table (`alloc_eq_none`).  `update_update_of_none`: a slot filled and freed again leaves the
table as it was, which is how an error path undoes an allocation.
-/

namespace Slots

variable {n : Nat} {α : Type}

/-- The lowest free slot of `t` gets `a`. -/
def alloc (t : Fin n → Option α) (a : α) : Option (Fin n × (Fin n → Option α)) :=
  (Scan.firstFin fun i => (t i).isNone).map fun i => (i, Function.update t i (some a))

variable {t t' : Fin n → Option α} {a : α} {i : Fin n}

theorem alloc_eq_some :
    alloc t a = some (i, t') ↔
      t i = none ∧ (∀ j, j < i → t j ≠ none) ∧ t' = Function.update t i (some a) := by
  unfold alloc
  constructor
  · intro h
    obtain ⟨j, hj, hji⟩ := Option.map_eq_some_iff.mp h
    obtain ⟨rfl, rfl⟩ := Prod.mk.inj hji
    obtain ⟨hfree, hlow⟩ := Scan.firstFin_eq_some.mp hj
    exact ⟨Option.isNone_iff_eq_none.mp hfree,
      fun k hk => Option.ne_none_iff_isSome.mpr (by simpa using hlow k hk), rfl⟩
  · rintro ⟨hfree, hlow, rfl⟩
    have hfirst : Scan.firstFin (fun j => (t j).isNone) = some i :=
      Scan.firstFin_eq_some.mpr ⟨by simp [hfree],
        fun j hj => by simpa using Option.ne_none_iff_isSome.mp (hlow j hj)⟩
    rw [hfirst]
    rfl

theorem alloc_eq_none : alloc t a = none ↔ ∀ i, t i ≠ none := by
  simp [alloc, Scan.firstFin_eq_none, Option.ne_none_iff_isSome]

/-- Slot `i` is free and every slot below it is taken: that is where `a` goes. -/
theorem alloc_lowest (hi : t i = none) (hlow : ∀ j, j < i → t j ≠ none) :
    alloc t a = some (i, Function.update t i (some a)) :=
  alloc_eq_some.mpr ⟨hi, hlow, rfl⟩

/-- A table with a free slot allocates. -/
theorem alloc_isSome (hi : t i = none) : ∃ j t', alloc t a = some (j, t') := by
  cases h : alloc t a with
  | none => exact absurd hi (alloc_eq_none.mp h i)
  | some r => exact ⟨r.1, r.2, rfl⟩

/-- An allocation lands above every slot of a taken prefix. -/
theorem le_of_alloc (h : alloc t a = some (i, t')) {k : Nat}
    (hk : ∀ j : Fin n, j.val < k → t j ≠ none) : k ≤ i.val := by
  obtain ⟨hi, -, -⟩ := alloc_eq_some.mp h
  by_contra hlt
  exact hk i (Nat.lt_of_not_le hlt) hi

/-- A free slot filled and freed again: the table is as it was. -/
theorem update_update_of_none {b : Option α} (hi : t i = none) :
    Function.update (Function.update t i b) i none = t := by
  rw [Function.update_idem, ← hi, Function.update_eq_self]

end Slots
