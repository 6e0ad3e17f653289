import Xv6Sched.Lib.Mem

/-!
# Xv6Sched.User.Memmove — `memmove` of `kernel/string.c` and of `user/ulib.c`

Both copy in place, one byte at a time, and choose the direction from a pointer comparison.  The
kernel's copies backward only when the destination starts strictly inside the source
(`s < d && s + n > d`); the user library's copies forward only when the source lies above the
destination (`src > dst`), and takes a signed count that copies nothing when it is not positive.

Each choice keeps the loop from reading a byte it has already written (`Mem.copyFwd_eq`,
`Mem.copyBwd_eq`), so both are `Mem.copy` from a snapshot of the source (`memmove_eq_copy`,
`Ulib.memmove_eq_copy`), whatever the overlap, and they agree on every count both accept.
-/

namespace Xv6Sched

/-- `memmove(dst, src, n)` of `kernel/string.c` with `uint n`; the memory after the call. -/
def memmove (m : Nat → UInt8) (dst src : Nat) (n : UInt32) : Nat → UInt8 :=
  if n = 0 then m
  else if src < dst ∧ src + n.toNat > dst then Mem.copyBwd m dst src n.toNat
  else Mem.copyFwd m dst src n.toNat

/-- The kernel's `memmove` is the copy of the original source bytes. -/
theorem memmove_eq_copy (m : Nat → UInt8) (dst src : Nat) (n : UInt32) :
    memmove m dst src n = Mem.copy m dst n.toNat fun i => m (src + i) := by
  unfold memmove
  split_ifs with h0 hback
  · subst h0
    simp
  · exact Mem.copyBwd_eq (by omega)
  · exact Mem.copyFwd_eq (by omega)

namespace Ulib

/-- `memmove(vdst, vsrc, n)` of `user/ulib.c` with `int n`: both loops run `while(n-- > 0)`, so a
count that is not positive copies nothing. -/
def memmove (m : Nat → UInt8) (vdst vsrc : Nat) (n : Int32) : Nat → UInt8 :=
  if vsrc > vdst then Mem.copyFwd m vdst vsrc n.toInt.toNat
  else Mem.copyBwd m vdst vsrc n.toInt.toNat

/-- The user library's `memmove` is the copy of the original source bytes. -/
theorem memmove_eq_copy (m : Nat → UInt8) (vdst vsrc : Nat) (n : Int32) :
    memmove m vdst vsrc n = Mem.copy m vdst n.toInt.toNat fun i => m (vsrc + i) := by
  unfold memmove
  split_ifs with hfwd
  · exact Mem.copyFwd_eq (by omega)
  · exact Mem.copyBwd_eq (by omega)

end Ulib

/-- Whatever the overlap, each `memmove` leaves the destination holding the original source bytes
and the rest of memory as it was (a signed count that is not positive copies nothing), so the two
compute the same memory on a count both take. -/
theorem memmove_copies_source (m : Nat → UInt8) (dst src : Nat) (n : UInt32) (n' : Int32) :
    (∀ i < n.toNat, memmove m dst src n (dst + i) = m (src + i)) ∧
    (∀ b, b < dst ∨ dst + n.toNat ≤ b → memmove m dst src n b = m b) ∧
    (∀ i : Nat, (i : Int) < n'.toInt → Ulib.memmove m dst src n' (dst + i) = m (src + i)) ∧
    (∀ b, b < dst ∨ dst + n'.toInt.toNat ≤ b → Ulib.memmove m dst src n' b = m b) ∧
    (n'.toInt = n.toNat → Ulib.memmove m dst src n' = memmove m dst src n) := by
  rw [memmove_eq_copy, Ulib.memmove_eq_copy]
  refine ⟨fun i hi => ?_, fun b hb => Mem.copy_of_not_mem hb, fun i hi => ?_,
    fun b hb => Mem.copy_of_not_mem hb, fun hn => ?_⟩
  · rw [Mem.copy_of_mem (by omega) (by omega), Nat.add_sub_cancel_left]
  · rw [Mem.copy_of_mem (by omega) (by omega), Nat.add_sub_cancel_left]
  · rw [show n'.toInt.toNat = n.toNat by omega]

end Xv6Sched
