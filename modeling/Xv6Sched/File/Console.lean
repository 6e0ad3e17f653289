import Xv6Sched.File.Pipe

/-!
# Xv6Sched.File.Console — console input: `consoleintr` and `consoleread`

`cons.buf` is a ring of `INPUT_BUF` cells addressed by three free-running `uint` indices: input
before `w` is committed and is read from `r`; the line being edited runs from `w` to `e`.
`consoleintr(c)` edits the line (backspace, kill-line), appends to it, and commits it at a
newline, a control-D or a full buffer.  `consoleread` takes committed bytes one at a time and
copies each out, stopping after a newline, at a control-D (put back when the read already has
data) or after `n` bytes, and sleeping while nothing is committed.  A call of `consoleread` is a
run of segments, each from the wait for input to a return or a sleep (`consolereadLoop`); the
segments of calls and the interrupts interleave in any order (`ConsReachable`).

Over every interleaving, `r ≤ w ≤ e ≤ r + INPUT_BUF` as `uint` differences
(`cons_indices_ordered`), `consoleintr` never changes committed input
(`consoleintr_keeps_committed`), and the bytes the reads take are the committed stream in order
(`cons_stream`).  A read whose `copyout`s succeed delivers what it takes, a control-D apart
(`consolereadLoop_delivers`).  But `consoleread` advances `r` before its `copyout`: when the copy
fails the byte is gone, and the next read goes on after it (`consoleread_fault_loses_byte`).
-/

namespace Xv6Sched

/-- `INPUT_BUF`. -/
def INPUT_BUF : Nat := 128

instance : NeZero INPUT_BUF := ⟨by decide⟩

/-- `C(x)`: control-`x`. -/
def ctrl (x : Char) : UInt8 := (x.toNat - '@'.toNat).toUInt8

/-- `'\n'`. -/
def newline : UInt8 := 10

/-- `'\r'`. -/
def carriageReturn : UInt8 := 13

/-- `'\x7f'`, the delete key. -/
def delete : UInt8 := 127

/-- `cons`: the input ring, and its read, write and edit indices. -/
structure Cons where
  buf : Fin INPUT_BUF → UInt8
  r : UInt32
  w : UInt32
  e : UInt32

/-- `cons` at boot: zeroed. -/
def Cons.init : Cons := ⟨fun _ => 0, 0, 0, 0⟩

/-- The loop of `C('U')` from the edit index `e`: back over the line being edited, never past `w`
and stopping after a newline; `k` bounds it by `e - w`. -/
def killLine (buf : Fin INPUT_BUF → UInt8) (w : UInt32) : Nat → UInt32 → UInt32
  | 0, e => e
  | k + 1, e =>
    if e ≠ w ∧ buf (Ring.cell INPUT_BUF (e - 1).toNat) ≠ newline then killLine buf w k (e - 1) else e

/-- `cons.buf[cons.e++ % INPUT_BUF] = c`, and the commit of a whole line, an end of file or a
full buffer: `cons.w = cons.e`. -/
def Cons.store (c : UInt8) (cons : Cons) : Cons :=
  let buf := Function.update cons.buf (Ring.cell INPUT_BUF cons.e.toNat) c
  let e := cons.e + 1
  if c = newline ∨ c = ctrl 'D' ∨ e = cons.r + INPUT_BUF.toUInt32 then ⟨buf, cons.r, e, e⟩
  else ⟨buf, cons.r, cons.w, e⟩

/-- `consoleintr(c)`; the echo and `procdump` do not bear on `cons`. -/
def consoleintr (c : UInt8) (cons : Cons) : Cons :=
  if c = ctrl 'P' then cons
  else if c = ctrl 'U' then { cons with e := killLine cons.buf cons.w (cons.e - cons.w).toNat cons.e }
  else if c = ctrl 'H' ∨ c = delete then
    if cons.e ≠ cons.w then { cons with e := cons.e - 1 } else cons
  else if c ≠ 0 ∧ (cons.e - cons.r).toNat < INPUT_BUF then
    Cons.store (if c = carriageReturn then newline else c) cons
  else cons

/-- How a segment of `consoleread` ends: the call returns `v`, or it sleeps on `&cons.r`. -/
inductive ReadStop
  | ret (v : Int)
  | sleep

/-- The loop of `consoleread` from its wait for input, with `target`, `n` bytes left and `dst`
where the next goes: `cons`, the user memory, `n` when the segment ends, and how it ends. -/
def consolereadLoop (killed : Bool) (target : Nat) : Nat → Nat → Cons → UserMem →
    Cons × UserMem × Nat × ReadStop
  | 0, _, cons, m => (cons, m, 0, .ret target)
  | n + 1, dst, cons, m =>
    if cons.r = cons.w then
      (cons, m, n + 1, if killed then .ret (-1) else .sleep)
    else
      let c := cons.buf (Ring.cell INPUT_BUF cons.r.toNat)
      let cons := { cons with r := cons.r + 1 }
      if c = ctrl 'D' then
        -- an end of file after some bytes stays for the next read
        ((if n + 1 < target then { cons with r := cons.r - 1 } else cons), m, n + 1,
          .ret ((target - (n + 1) : Nat) : Int))
      else
        match copyout m dst c with
        | none => (cons, m, n + 1, .ret ((target - (n + 1) : Nat) : Int))
        | some m =>
          if c = newline then (cons, m, n, .ret ((target - n : Nat) : Int))
          else consolereadLoop killed target n (dst + 1) cons m

/-- `consoleread(user_dst, dst, n)` up to its first return or sleep. -/
def consoleread (killed : Bool) (m : UserMem) (dst n : Nat) (cons : Cons) :
    Cons × UserMem × Nat × ReadStop :=
  consolereadLoop killed n n dst cons m

/-! ### Committed input -/

/-- Committed input not yet read, oldest first: the cells from `r` to `w`. -/
def Cons.pending (cons : Cons) : List UInt8 := Ring.view cons.buf cons.r.toNat (cons.w - cons.r).toNat

/-- `r ≤ w ≤ e ≤ r + INPUT_BUF`, as differences of `uint`s. -/
structure ConsOk (cons : Cons) : Prop where
  w_le_e : (cons.w - cons.r).toNat ≤ (cons.e - cons.r).toNat
  e_le : (cons.e - cons.r).toNat ≤ INPUT_BUF

/-- Index `a` names the cell `(a - b)` counters after `b`: the ring has `INPUT_BUF ∣ 2 ^ 32`
cells, so the indices may wrap. -/
theorem cons_cell_eq (a b : UInt32) :
    Ring.cell INPUT_BUF a.toNat = Ring.cell INPUT_BUF (b.toNat + (a - b).toNat) := by
  rw [UInt32.toNat_eq_add_sub a b, Ring.cell_mod (by decide)]

/-- A step that keeps `r` and the committed cells, and moves `w` no further back, extends the
committed input by the cells from the old `w` to the new. -/
theorem Cons.pending_extend {cons cons' : Cons} (hr : cons'.r = cons.r)
    (hw : (cons.w - cons.r).toNat ≤ (cons'.w - cons.r).toNat)
    (hbuf : Ring.view cons'.buf cons.r.toNat (cons.w - cons.r).toNat = cons.pending) :
    cons'.pending = cons.pending ++ Ring.view cons'.buf cons.w.toNat (cons'.w - cons.w).toNat := by
  have hd := UInt32.toNat_sub_sub_of_le hw
  unfold Cons.pending
  rw [hr, show (cons'.w - cons.r).toNat = (cons.w - cons.r).toNat + (cons'.w - cons.w).toNat by omega,
    Ring.view_append, hbuf]
  congr 1
  apply Ring.view_congr
  rw [UInt32.toNat_eq_add_sub cons.w cons.r, Nat.mod_mod_of_dvd _ (by decide)]

/-- `cons.r++` on a nonempty buffer: the byte taken is the head of the committed input. -/
theorem Cons.pending_pop {cons : Cons} (h : cons.r ≠ cons.w) :
    cons.pending = cons.buf (Ring.cell INPUT_BUF cons.r.toNat) :: { cons with r := cons.r + 1 }.pending := by
  have hc := UInt32.toNat_sub_add_one (Ne.symm h)
  unfold Cons.pending
  rw [← hc, Ring.view_pop]
  congr 1
  apply Ring.view_congr
  simp only [UInt32.toNat_add, UInt32.toNat_one]
  rw [Nat.mod_mod_of_dvd _ (by decide)]

theorem ConsOk.pop {cons : Cons} (h : ConsOk cons) (hne : cons.r ≠ cons.w) :
    ConsOk { cons with r := cons.r + 1 } := by
  have hwe := h.w_le_e
  have hel := h.e_le
  have hw := UInt32.toNat_sub_add_one (Ne.symm hne)
  have hw0 : (cons.w - cons.r).toNat ≠ 0 := fun h0 => hne (UInt32.eq_iff_toNat_sub.mpr h0).symm
  -- `e` is at least as far ahead as `w`, so it moves with `r`
  have he := @UInt32.toNat_sub_add_one cons.e cons.r
    (fun h0 => by rw [UInt32.eq_iff_toNat_sub] at h0; omega)
  exact ⟨by dsimp only; omega, by dsimp only; omega⟩

/-! ### `consoleintr` -/

section Intr

variable {buf : Fin INPUT_BUF → UInt8} {r w : UInt32}

/-- Kill-line stops between `w` and where it started. -/
theorem killLine_spec : ∀ (k : Nat) (e : UInt32), (w - r).toNat + k = (e - r).toNat →
    (w - r).toNat ≤ (killLine buf w k e - r).toNat ∧ (killLine buf w k e - r).toNat ≤ (e - r).toNat := by
  intro k
  induction k with
  | zero => intro e he; simp only [killLine]; omega
  | succ k ih =>
    intro e he
    simp only [killLine]
    split
    · -- one cell back, short of `w`
      have hne : (e - r).toNat ≠ 0 := by omega
      have hb := UInt32.toNat_sub_one_sub hne
      have := ih (e - 1) (by omega)
      omega
    · omega

variable {c : UInt8} {cons : Cons}

/-- Storing a character keeps `r` and the committed cells, and commits the line or not. -/
theorem Cons.store_spec (x : UInt8) (h : ConsOk cons) (hroom : (cons.e - cons.r).toNat < INPUT_BUF) :
    (cons.store x).r = cons.r ∧ ConsOk (cons.store x) ∧
      (cons.w - cons.r).toNat ≤ ((cons.store x).w - cons.r).toNat ∧
      Ring.view (cons.store x).buf cons.r.toNat (cons.w - cons.r).toNat = cons.pending := by
  have hwe := h.w_le_e
  have he1 := @UInt32.toNat_add_one_sub cons.e cons.r (by unfold INPUT_BUF at hroom; omega)
  -- the new character goes past `w`, within one ring of `r`
  have hbuf : Ring.view (Function.update cons.buf (Ring.cell INPUT_BUF cons.e.toNat) x) cons.r.toNat
      (cons.w - cons.r).toNat = cons.pending := by
    rw [cons_cell_eq cons.e cons.r]
    exact Ring.view_update_of_le _ hwe hroom
  unfold Cons.store
  dsimp only
  split
  · exact ⟨rfl, ⟨by dsimp only; omega, by dsimp only; omega⟩, by dsimp only; omega, hbuf⟩
  · exact ⟨rfl, ⟨by dsimp only; omega, by dsimp only; omega⟩, le_rfl, hbuf⟩

/-- Each case of `consoleintr` keeps `r`, the order of the indices and the committed cells, and
moves `w` no further back. -/
theorem consoleintr_spec (h : ConsOk cons) :
    (consoleintr c cons).r = cons.r ∧ ConsOk (consoleintr c cons) ∧
      (cons.w - cons.r).toNat ≤ ((consoleintr c cons).w - cons.r).toNat ∧
      Ring.view (consoleintr c cons).buf cons.r.toNat (cons.w - cons.r).toNat = cons.pending := by
  have hwe := h.w_le_e
  have hel := h.e_le
  unfold consoleintr
  split_ifs with hP hU hH hne hroom
  · exact ⟨rfl, h, le_rfl, rfl⟩
  · -- kill-line: `e` moves back, never past `w`
    have hk := UInt32.toNat_sub_sub_of_le hwe
    obtain ⟨h1, h2⟩ := @killLine_spec cons.buf cons.r cons.w (cons.e - cons.w).toNat cons.e (by omega)
    exact ⟨rfl, ⟨h1, by dsimp only; omega⟩, le_rfl, rfl⟩
  · -- backspace: `e` moves back one, short of `w`
    have hne' : (cons.e - cons.r).toNat ≠ (cons.w - cons.r).toNat := fun h0 => hne (UInt32.eq_iff_toNat_sub_eq.mpr h0)
    have hb := @UInt32.toNat_sub_one_sub cons.e cons.r (by omega)
    exact ⟨rfl, ⟨by dsimp only; omega, by dsimp only; omega⟩, le_rfl, rfl⟩
  · exact ⟨rfl, h, le_rfl, rfl⟩
  · exact Cons.store_spec _ h hroom.2
  · exact Cons.store_spec _ h hroom.2
  · exact ⟨rfl, h, le_rfl, rfl⟩

end Intr

/-! ### `consoleread` -/

section Read

variable {killed : Bool} {target : Nat}

/-- A segment of `consoleread` takes bytes from the head of the committed input, and leaves the
ring, `w` and `e`. -/
theorem consolereadLoop_spec : ∀ {n dst : Nat} {cons cons' : Cons} {m m' : UserMem} {n' : Nat}
    {st : ReadStop}, ConsOk cons → consolereadLoop killed target n dst cons m = (cons', m', n', st) →
      cons'.buf = cons.buf ∧ cons'.w = cons.w ∧ cons'.e = cons.e ∧ ConsOk cons' ∧ n' ≤ n ∧
        (cons'.w - cons'.r).toNat ≤ (cons.w - cons.r).toNat ∧
        cons.pending = cons.pending.take ((cons.w - cons.r).toNat - (cons'.w - cons'.r).toNat) ++ cons'.pending := by
  intro n
  induction n with
  | zero =>
    intro dst cons cons' m m' n' st hok h
    cases h
    simp [hok]
  | succ n ih =>
    intro dst cons cons' m m' n' st hok h
    simp only [consolereadLoop] at h
    split at h
    · cases h
      simp [hok]
    rename_i hne
    have hpop := Cons.pending_pop hne
    have hc := UInt32.toNat_sub_add_one (Ne.symm hne)
    have hok1 := hok.pop hne
    -- the byte is taken whether or not its `copyout` succeeds
    have htail : ∀ {cons'' : Cons}, cons''.w = cons.w →
        (cons''.w - cons''.r).toNat ≤ ({ cons with r := cons.r + 1 }.w - { cons with r := cons.r + 1 }.r).toNat →
        { cons with r := cons.r + 1 }.pending =
          { cons with r := cons.r + 1 }.pending.take
            (({ cons with r := cons.r + 1 }.w - { cons with r := cons.r + 1 }.r).toNat - (cons''.w - cons''.r).toNat) ++
            cons''.pending →
        (cons''.w - cons''.r).toNat ≤ (cons.w - cons.r).toNat ∧
          cons.pending = cons.pending.take ((cons.w - cons.r).toNat - (cons''.w - cons''.r).toNat) ++ cons''.pending := by
      intro cons'' _ hle hq
      dsimp only at hle hq hc
      refine ⟨by omega, ?_⟩
      rw [hpop, show (cons.w - cons.r).toNat - (cons''.w - cons''.r).toNat =
          ((cons.w - (cons.r + 1)).toNat - (cons''.w - cons''.r).toNat) + 1 by omega,
        List.take_succ_cons, List.cons_append, ← hq]
    split at h
    · -- control-D: put back, or taken
      cases h
      split
      · have hr : cons.r + 1 - 1 = cons.r := by simp
        simp [hr, hok]
      · exact ⟨rfl, rfl, rfl, hok1, le_rfl, htail rfl le_rfl (by simp)⟩
    split at h
    · cases h
      exact ⟨rfl, rfl, rfl, hok1, le_rfl, htail rfl le_rfl (by simp)⟩
    split at h
    · cases h
      exact ⟨rfl, rfl, rfl, hok1, Nat.le_succ n, htail rfl le_rfl (by simp)⟩
    · obtain ⟨hb, hw, he, hok', hn, hle, hq⟩ := ih hok1 h
      exact ⟨hb, hw, he, hok', Nat.le_succ_of_le hn, htail hw hle hq⟩

/-- When every `copyout` of a segment succeeds, it delivers exactly the bytes it takes but a
control-D, after what the call delivered before (`k` bytes from `base`). -/
theorem consolereadLoop_delivers {base : Nat} : ∀ {n k : Nat} {cons cons' : Cons} {m m' : UserMem}
    {n' : Nat} {st : ReadStop}, ConsOk cons → consolereadLoop killed target n (base + k) cons m = (cons', m', n', st) →
      (∀ j < n, m.mapped (base + k + j) = true) →
      m'.read base (k + (n - n')) = m.read base k ++
        (cons.pending.take ((cons.w - cons.r).toNat - (cons'.w - cons'.r).toNat)).filter (· ≠ ctrl 'D') := by
  intro n
  induction n with
  | zero =>
    intro k cons cons' m m' n' st hok h _
    cases h
    simp
  | succ n ih =>
    intro k cons cons' m m' n' st hok h hmap
    simp only [consolereadLoop] at h
    split at h
    · cases h
      simp
    rename_i hne
    have hpop := Cons.pending_pop hne
    have hc := UInt32.toNat_sub_add_one (Ne.symm hne)
    have hok1 := hok.pop hne
    split at h
    · -- control-D: nothing delivered, and taken only when the read has no data
      rename_i hD
      cases h
      split
      · have hr : cons.r + 1 - 1 = cons.r := by simp
        simp [hr]
      · rw [hpop]
        dsimp only at hc ⊢
        rw [show (cons.w - cons.r).toNat - (cons.w - (cons.r + 1)).toNat = 0 + 1 by omega,
          List.take_succ_cons]
        simp [hD]
    rename_i hD
    split at h
    · -- the first `copyout` cannot fail: its address is mapped
      rename_i hout
      have hm := hmap 0 (Nat.succ_pos n)
      rw [Nat.add_zero] at hm
      simp [copyout, hm] at hout
    rename_i m1 hout
    have hread := UserMem.read_copyout hout
    have hm1 : m1.mapped = m.mapped := by
      unfold copyout at hout
      split at hout
      · cases hout
        rfl
      · cases hout
    split at h
    · -- a newline ends the read after its copy
      cases h
      rw [hpop]
      dsimp only at hc ⊢
      rw [show (cons.w - cons.r).toNat - (cons.w - (cons.r + 1)).toNat = 0 + 1 by omega,
        List.take_succ_cons, show n + 1 - n = 1 by omega, hread]
      simp [hD]
    · obtain ⟨-, -, -, -, hn, hle', -⟩ := consolereadLoop_spec hok1 h
      have hrest := ih hok1 h (fun j hj => by
        rw [hm1, show base + (k + 1) + j = base + k + (j + 1) by omega]
        exact hmap (j + 1) (by omega))
      dsimp only at hle' hc
      rw [hpop, show (cons.w - cons.r).toNat - (cons'.w - cons'.r).toNat =
          ((cons.w - (cons.r + 1)).toNat - (cons'.w - cons'.r).toNat) + 1 by omega,
        List.take_succ_cons, List.filter_cons_of_pos (by simpa using hD),
        show k + (n + 1 - n') = k + 1 + (n - n') by omega, hrest, hread]
      simp

end Read

/-! ### Every interleaving -/

/-- One atomic step on the console: an input interrupt, or a segment of a `consoleread` with its
`target`, the `n` it has left and where its next byte goes. -/
inductive ConsOp
  | intr (c : UInt8)
  | read (killed : Bool) (m : UserMem) (target n dst : Nat)

/-- The console, with every byte committed and every byte a read took, in order. -/
structure ConsSys where
  cons : Cons
  committed : List UInt8
  taken : List UInt8

/-- One step: an interrupt commits the cells from the old `w` to the new; a read takes the head
of the committed input. -/
def consStep (s : ConsSys) : ConsOp → ConsSys
  | .intr c =>
    let cons := consoleintr c s.cons
    ⟨cons, s.committed ++ Ring.view cons.buf s.cons.w.toNat (cons.w - s.cons.w).toNat, s.taken⟩
  | .read killed m target n dst =>
    let cons := (consolereadLoop killed target n dst s.cons m).1
    ⟨cons, s.committed, s.taken ++ s.cons.pending.take ((s.cons.w - s.cons.r).toNat - (cons.w - cons.r).toNat)⟩

/-- The console at boot. -/
def ConsSys.init : ConsSys := ⟨Cons.init, [], []⟩

/-- States reached from boot by any interleaving of interrupts and read segments. -/
def ConsReachable : ConsSys → Prop := LTS.Reachable (fun s op => some (consStep s op)) ConsSys.init

/-- What holds between any two steps. -/
structure ConsInv (s : ConsSys) : Prop where
  ok : ConsOk s.cons
  stream : s.taken ++ s.cons.pending = s.committed

theorem consInv_init : ConsInv ConsSys.init :=
  ⟨⟨le_rfl, by decide⟩, rfl⟩

theorem ConsInv.intr {s : ConsSys} (h : ConsInv s) (c : UInt8) : ConsInv (consStep s (.intr c)) := by
  obtain ⟨hr, hok, hw, hbuf⟩ := consoleintr_spec (c := c) h.ok
  refine ⟨hok, ?_⟩
  show s.taken ++ (consoleintr c s.cons).pending = _
  rw [Cons.pending_extend hr hw hbuf, ← List.append_assoc, h.stream]
  rfl

theorem ConsInv.read {s : ConsSys} (h : ConsInv s) (killed : Bool) (m : UserMem) (target n dst : Nat) :
    ConsInv (consStep s (.read killed m target n dst)) := by
  rcases hr : consolereadLoop killed target n dst s.cons m with ⟨cons', m', n', st⟩
  obtain ⟨-, -, -, hok, -, -, hq⟩ := consolereadLoop_spec h.ok hr
  refine ⟨?_, ?_⟩
  · show ConsOk (consolereadLoop killed target n dst s.cons m).1
    rw [hr]
    exact hok
  · show s.taken ++ _ ++ (consolereadLoop killed target n dst s.cons m).1.pending = _
    rw [hr, List.append_assoc, ← hq, h.stream]
    rfl

theorem ConsInv.step {s : ConsSys} (h : ConsInv s) : ∀ op, ConsInv (consStep s op)
  | .intr c => h.intr c
  | .read killed m target n dst => h.read killed m target n dst

theorem ConsReachable.consInv {s : ConsSys} (h : ConsReachable s) : ConsInv s :=
  LTS.Reachable.inv consInv_init (fun _ op _ hs e => Option.some.inj e ▸ hs.step op) h

/-- Whatever the interleaving, `r ≤ w ≤ e ≤ r + INPUT_BUF` as `uint` differences. -/
theorem cons_indices_ordered {s : ConsSys} (h : ConsReachable s) :
    (s.cons.w - s.cons.r).toNat ≤ (s.cons.e - s.cons.r).toNat ∧ (s.cons.e - s.cons.r).toNat ≤ INPUT_BUF :=
  ⟨h.consInv.ok.w_le_e, h.consInv.ok.e_le⟩

/-- An interrupt, editing or not, leaves `r` and the committed input where they are: what was
committed is a prefix of what is committed after, and `e` stays at or past `w`. -/
theorem consoleintr_keeps_committed {s : ConsSys} (h : ConsReachable s) (c : UInt8) :
    (consoleintr c s.cons).r = s.cons.r ∧ s.cons.pending <+: (consoleintr c s.cons).pending ∧
      ConsOk (consoleintr c s.cons) := by
  obtain ⟨hr, hok, hw, hbuf⟩ := consoleintr_spec (c := c) h.consInv.ok
  exact ⟨hr, ⟨_, (Cons.pending_extend hr hw hbuf).symm⟩, hok⟩

/-- Whatever the interleaving, the bytes the reads took, then the committed input not yet read,
are every byte committed, in order. -/
theorem cons_stream {s : ConsSys} (h : ConsReachable s) : s.taken ++ s.cons.pending = s.committed :=
  h.consInv.stream

/-- `a`, `b`, and a carriage return: the line `ab` committed with a newline. -/
def typedAB : List UInt8 := [97, 98, carriageReturn]

/-- After `ab` is typed and committed, a `consoleread(3)` into a buffer whose second byte is
unmapped takes `a` and `b` and returns `1`; the next `consoleread(3)` returns the newline.  The
bytes returned, `a` then a newline, are not a prefix of what was committed: `b` is lost. -/
theorem consoleread_fault_loses_byte :
    ∃ c1 c2 c3 m2 m3 n2 n3,
      typedAB.foldl (fun cons c => consoleintr c cons) Cons.init = c1 ∧ c1.pending = [97, 98, newline] ∧
      consoleread false dstEdge 0 3 c1 = (c2, m2, n2, .ret 1) ∧
      consoleread false dstAll 0 3 c2 = (c3, m3, n3, .ret 1) ∧
      m2.read 0 1 ++ m3.read 0 1 = [97, newline] ∧ ¬ (m2.read 0 1 ++ m3.read 0 1 <+: c1.pending) :=
  ⟨_, _, _, _, _, _, _, rfl, by decide, rfl, rfl, by decide, by decide⟩

end Xv6Sched
