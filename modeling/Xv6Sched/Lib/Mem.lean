import Mathlib.Tactic.Ring

/-!
# Xv6Sched.Lib.Mem — byte-addressed memory and little-endian words

A memory is `Nat → UInt8`.  `copy m dst n src` is `memmove(dst, src, n)` from a buffer `src` held
apart from `m`; `fill` is `memset`; `store` writes an `n`-byte word little-endian and `load` reads
one back.  A load depends only on the bytes it covers (`load_congr`), so a write to other bytes
leaves it unchanged (`load_copy_of_disjoint`), and a load of a stored word gives the word modulo
`256 ^ n` (`load_store`).

`Frame m m' W`: `m'` differs from `m` at most on the addresses in `W`.  It is reflexive,
transitive up to the union of the sets, and monotone in `W`; a copy frames its range.
-/

namespace Mem

/-- The little-endian value of the `n` bytes of `m` from address `a`. -/
def load (m : Nat → UInt8) (a : Nat) : Nat → Nat
  | 0 => 0
  | n + 1 => (m a).toNat + 256 * load m (a + 1) n

/-- `memmove(dst, src, n)` from a buffer apart from `m`: the bytes `dst .. dst + n` become
`src 0 .. src (n - 1)`. -/
def copy (m : Nat → UInt8) (dst n : Nat) (src : Nat → UInt8) : Nat → UInt8 :=
  fun b => if dst ≤ b ∧ b < dst + n then src (b - dst) else m b

/-- `memset(a, c, n)`. -/
def fill (m : Nat → UInt8) (a n : Nat) (c : UInt8) : Nat → UInt8 := copy m a n fun _ => c

/-- The `n`-byte word `v` stored little-endian at `a`. -/
def store (m : Nat → UInt8) (a n v : Nat) : Nat → UInt8 := copy m a n fun k => UInt8.ofNat (v / 256 ^ k)

/-- `m'` differs from `m` at most on the addresses in `W`. -/
def Frame (m m' : Nat → UInt8) (W : Nat → Prop) : Prop := ∀ b, ¬ W b → m' b = m b

variable {m m' m'' : Nat → UInt8} {a b dst n k : Nat} {src : Nat → UInt8}

/-! ### Copies -/

theorem copy_of_mem (h1 : dst ≤ b) (h2 : b < dst + n) : copy m dst n src b = src (b - dst) := by
  unfold copy
  rw [if_pos ⟨h1, h2⟩]

theorem copy_of_not_mem (h : b < dst ∨ dst + n ≤ b) : copy m dst n src b = m b := by
  unfold copy
  rw [if_neg (by omega)]

@[simp] theorem copy_zero : copy m dst 0 src = m := by
  funext b
  exact copy_of_not_mem (by omega)

/-- A copy reads only the first `n` bytes of its source. -/
theorem copy_congr {src' : Nat → UInt8} (h : ∀ k < n, src' k = src k) : copy m dst n src' = copy m dst n src := by
  funext b
  unfold copy
  split_ifs with hb
  · exact h _ (by omega)
  · rfl

theorem copy_one : copy m dst 1 src = Function.update m dst (src 0) := by
  funext b
  by_cases hb : b = dst
  · rw [hb, copy_of_mem le_rfl (by omega), Nat.sub_self, Function.update_self]
  · rw [copy_of_not_mem (by omega), Function.update_of_ne hb]

/-- Two copies to adjacent ranges, from adjacent parts of one source, are one copy. -/
theorem copy_copy (n' : Nat) :
    copy (copy m dst n src) (dst + n) n' (fun j => src (n + j)) = copy m dst (n + n') src := by
  funext b
  by_cases h1 : dst + n ≤ b ∧ b < dst + n + n'
  · rw [copy_of_mem h1.1 h1.2, copy_of_mem (by omega) (by omega)]
    congr 1
    omega
  · rw [copy_of_not_mem (by omega)]
    unfold copy
    by_cases h2 : dst ≤ b ∧ b < dst + n
    · rw [if_pos h2, if_pos (by omega)]
    · rw [if_neg h2, if_neg (by omega)]

/-- A copy of `1 + n` bytes is its first byte and then the rest. -/
theorem copy_succ (n : Nat) :
    copy (Function.update m dst (src 0)) (dst + 1) n (fun j => src (1 + j)) = copy m dst (1 + n) src := by
  rw [← copy_one, copy_copy]

/-- A copy of `n` bytes done as its first `c` bytes and then the rest. -/
theorem copy_split {f f' : Nat → UInt8} {c : Nat} (hc : c ≤ n) (h : ∀ k < c, f k = src k)
    (h' : ∀ k < n - c, f' k = src (c + k)) : copy (copy m dst c f) (dst + c) (n - c) f' = copy m dst n src := by
  rw [copy_congr h, copy_congr h', copy_copy, Nat.add_sub_cancel' hc]

/-- A copy over the same bytes hides an earlier one. -/
theorem copy_copy_self {src' : Nat → UInt8} : copy (copy m dst n src) dst n src' = copy m dst n src' := by
  funext b
  unfold copy
  split_ifs <;> rfl

theorem fill_fill (c c' : UInt8) : fill (fill m a n c) a n c' = fill m a n c' := copy_copy_self

/-- A copy of `n + 1` bytes is the first `n` and then the last. -/
theorem copy_succ_last (n : Nat) : Function.update (copy m dst n src) (dst + n) (src n) = copy m dst (n + 1) src := by
  rw [← copy_copy 1, copy_one, Nat.add_zero]

/-- A write outside a copy's range commutes with it. -/
theorem copy_update_of_not_mem {v : UInt8} (h : b < dst ∨ dst + n ≤ b) :
    copy (Function.update m b v) dst n src = Function.update (copy m dst n src) b v := by
  funext x
  by_cases hx : x = b
  · subst hx
    rw [copy_of_not_mem h, Function.update_self, Function.update_self]
  · rw [Function.update_of_ne hx]
    unfold copy
    split_ifs
    · rfl
    · exact Function.update_of_ne hx _ _

/-! ### Byte loops

The two loops of a C `memmove`, one byte at a time in place.  Each is the copy from a snapshot of
the source as long as it never reads a byte it has already written: the forward loop unless the
destination starts strictly inside the source, the backward loop unless the source starts strictly
inside the destination. -/

/-- `while(n-- > 0) *d++ = *s++;` -/
def copyFwd (m : Nat → UInt8) (d s : Nat) : Nat → Nat → UInt8
  | 0 => m
  | n + 1 => copyFwd (Function.update m d (m s)) (d + 1) (s + 1) n

/-- `d += n; s += n; while(n-- > 0) *--d = *--s;`: the last byte first. -/
def copyBwd (m : Nat → UInt8) (d s : Nat) : Nat → Nat → UInt8
  | 0 => m
  | n + 1 => copyBwd (Function.update m (d + n) (m (s + n))) d s n

theorem copyFwd_eq {s : Nat} (h : ¬ (s < dst ∧ dst < s + n)) : copyFwd m dst s n = copy m dst n fun i => m (s + i) := by
  induction n generalizing m dst s with
  | zero => simp [copyFwd]
  | succ n ih =>
    -- the bytes still to be read lie past the one just written, or wholly before it
    have hsrc : ∀ i < n, Function.update m dst (m s) (s + 1 + i) = m (s + (1 + i)) := fun i _ => by
      rw [Function.update_of_ne (by omega), Nat.add_assoc]
    rw [copyFwd, ih (by omega), copy_congr hsrc, Nat.add_comm n 1, ← copy_succ]
    simp only [Nat.add_zero]

theorem copyBwd_eq {s : Nat} (h : ¬ (dst < s ∧ s < dst + n)) : copyBwd m dst s n = copy m dst n fun i => m (s + i) := by
  induction n generalizing m with
  | zero => simp [copyBwd]
  | succ n ih =>
    -- the bytes still to be read lie below the one just written, or wholly above it
    have hsrc : ∀ i < n, Function.update m (dst + n) (m (s + n)) (s + i) = m (s + i) := fun i _ =>
      Function.update_of_ne (by omega) _ _
    rw [copyBwd, ih (by omega), copy_congr hsrc, copy_update_of_not_mem (by omega), copy_succ_last]

/-! ### Loads -/

theorem load_congr (h : ∀ k < n, m' (a + k) = m (a + k)) : load m' a n = load m a n := by
  induction n generalizing a with
  | zero => rfl
  | succ n ih =>
    have h0 : m' a = m a := h 0 (by omega)
    have h1 : ∀ k < n, m' (a + 1 + k) = m (a + 1 + k) := fun k hk => by
      rw [Nat.add_assoc, Nat.add_comm 1 k]
      exact h (k + 1) (by omega)
    rw [load, load, h0, ih h1]

theorem load_lt (m : Nat → UInt8) (a : Nat) : ∀ n, load m a n < 256 ^ n
  | 0 => by simp [load]
  | n + 1 => by
    have h0 := (m a).toNat_lt
    have h1 := load_lt m (a + 1) n
    rw [load, pow_succ]
    omega

theorem load_copy_of_disjoint (h : a + k ≤ dst ∨ dst + n ≤ a) : load (copy m dst n src) a k = load m a k :=
  load_congr fun j hj => copy_of_not_mem (by omega)

theorem load_store (m : Nat → UInt8) (a v : Nat) : ∀ n, load (store m a n v) a n = v % 256 ^ n
  | 0 => by simp [load, Nat.mod_one]
  | n + 1 => by
    -- the upper `n` bytes are the store of `v / 256` one address up
    have hup : load (store m a (n + 1) v) (a + 1) n = load (store m (a + 1) n (v / 256)) (a + 1) n := by
      apply load_congr
      intro j hj
      unfold store
      rw [copy_of_mem (by omega) (by omega), copy_of_mem (by omega) (by omega),
        show a + 1 + j - a = j + 1 by omega, show a + 1 + j - (a + 1) = j by omega,
        pow_succ', Nat.div_div_eq_div_mul]
    have h0 : (store m a (n + 1) v a).toNat = v % 256 := by
      unfold store
      rw [copy_of_mem le_rfl (by omega), Nat.sub_self, pow_zero, Nat.div_one, UInt8.toNat_ofNat']
    rw [load, hup, load_store m (a + 1) (v / 256) n, h0, pow_succ', Nat.mod_mul]

/-- A load from a range that was filled with zeros. -/
theorem load_fill_zero (h1 : dst ≤ a) (h2 : a + k ≤ dst + n) : load (fill m dst n 0) a k = 0 := by
  induction k generalizing a with
  | zero => rfl
  | succ k ih =>
    rw [load, ih (by omega) (by omega)]
    unfold fill
    rw [copy_of_mem h1 (by omega)]
    rfl

/-! ### Frames -/

theorem Frame.refl (m : Nat → UInt8) (W : Nat → Prop) : Frame m m W := fun _ _ => rfl

theorem Frame.trans {W W' : Nat → Prop} (h : Frame m m' W) (h' : Frame m' m'' W') :
    Frame m m'' fun b => W b ∨ W' b :=
  fun b hb => (h' b fun hw => hb (.inr hw)).trans (h b fun hw => hb (.inl hw))

theorem Frame.mono {W W' : Nat → Prop} (h : Frame m m' W) (hW : ∀ b, W b → W' b) : Frame m m' W' :=
  fun b hb => h b fun hw => hb (hW b hw)

theorem frame_copy (m : Nat → UInt8) (dst n : Nat) (src : Nat → UInt8) :
    Frame m (copy m dst n src) fun b => dst ≤ b ∧ b < dst + n :=
  fun _ hb => copy_of_not_mem (by omega)

/-- A load from outside the range a frame allows to change. -/
theorem Frame.load_eq {W : Nat → Prop} (h : Frame m m' W) (hW : ∀ j < k, ¬ W (a + j)) :
    load m' a k = load m a k :=
  load_congr fun j hj => h _ (hW j hj)

end Mem
