import Mathlib.Algebra.BigOperators.Ring.Finset
import Mathlib.Algebra.Order.BigOperators.Group.Finset
import Xv6Sched.Fs.LogAtomic
import Xv6Sched.Fs.Mkfs
import Xv6Sched.Proc.Defs

/-!
# Xv6Sched.Fs.LogSpace — `begin_op`, `log_write` and `end_op` of concurrent system calls

Each file-system system call runs `begin_op()`, its `log_write`s and `end_op()`; the calls of
different processes interleave at these points, each taken under `log.lock`.  `LogSys` is the
in-memory log with, for each process inside an operation, the distinct blocks it has logged
(`writes`).  `logStep` lets a process log a block only inside an operation and within its
budget of `MAXOPBLOCKS` distinct blocks, the meaning of `MAXOPBLOCKS`.  The commit that the
last `end_op` runs ends before any other step: `begin_op` sleeps while it runs, and no operation
is left to call `log_write`.

`begin_op` admits an operation only while `lh.n + (outstanding + 1) * MAXOPBLOCKS ≤ LOGSIZE`.
What that buys is the invariant `LogSpace`: `lh.n` plus the blocks the operations in progress
may still add (`reserve`) is at most `LOGSIZE`, so a `log_write` within budget finds
`lh.n < LOGSIZE` and `outstanding ≥ 1` (`log_write_within_budget`).  It does not buy
`lh.n < log.size - 1`: on the disk `mkfs` lays out, `log.size = nlog = LOGSIZE`, and three
operations of `MAXOPBLOCKS` blocks each are admitted together and bring `lh.n` to
`log.size - 1` before the last one's last block (`log_write_panics_at_size`).
-/

namespace Xv6Sched

/-- The in-memory log, and for each process inside an operation the distinct blocks it has
logged. -/
structure LogSys where
  log : Log
  writes : Fin NPROC → Option (List Nat)

/-- A step of process `p`. -/
inductive LogOp
  | beginOp (p : Fin NPROC)
  | logWrite (p : Fin NPROC) (blockno : Nat)
  | endOp (p : Fin NPROC)

/-- One step.  `none` is a step that no system call makes (`begin_op` inside an operation, a
`log_write` outside one or past the call's budget, `end_op` outside one), a sleep of
`begin_op`, or a panic.  `end_op` is run with the word header and an empty cache: the blocks
its commit writes do not bear on the in-memory log. -/
def logStep (s : LogSys) : LogOp → Option LogSys
  | .beginOp p =>
    if s.writes p = none then
      (beginOp s.log).map fun lg => ⟨lg, Function.update s.writes p (some [])⟩
    else none
  | .logWrite p b =>
    match s.writes p with
    | some ws =>
      if (ws.insert b).length ≤ MAXOPBLOCKS then
        (logWrite s.log b).map fun lg => ⟨lg, Function.update s.writes p (some (ws.insert b))⟩
      else none
    | none => none
  | .endOp p =>
    match s.writes p with
    | some _ => (endOp wordHead s.log fun _ _ => 0).map fun r => ⟨r.1, Function.update s.writes p none⟩
    | none => none

/-- The log after `initlog` on the superblock `mkfs` writes (`logstart = 2`, `nlog`), no
operation in progress. -/
def LogSys.init : LogSys := ⟨⟨2, Mkfs.nlog, 0, false, []⟩, fun _ => none⟩

theorem initlog_mkfs {α : Type} (C : HeadCodec α) (d : Nat → α) :
    (initlog C 2 Mkfs.nlog d).1 = LogSys.init.log := rfl

/-- States reached from boot by any interleaving of operations within budget. -/
def LogReachable : LogSys → Prop := LTS.Reachable logStep LogSys.init

/-! ### One call at a time -/

/-- What `begin_op` does when it does not sleep. -/
theorem beginOp_spec {lg lg' : Log} (h : beginOp lg = some lg') :
    lg.committing = false ∧ (lg.lh.length : Int) + (lg.outstanding + 1) * MAXOPBLOCKS ≤ LOGSIZE ∧
      lg' = { lg with outstanding := lg.outstanding + 1 } := by
  unfold beginOp at h
  split_ifs at h with hc hfull
  cases h
  exact ⟨by simpa using hc, by omega, rfl⟩

/-- What `end_op` does to the in-memory log when it does not panic. -/
theorem endOp_log {α : Type} {C : HeadCodec α} {cache : Nat → α} {lg : Log} {r : Log × Prog α}
    (h : endOp C lg cache = some r) :
    lg.committing = false ∧ r.1 = if lg.outstanding - 1 = 0 then
      { lg with outstanding := lg.outstanding - 1, lh := [] } else { lg with outstanding := lg.outstanding - 1 } := by
  unfold endOp at h
  dsimp only at h
  split_ifs at h with hc h0
  · cases h
    exact ⟨by simpa using hc, by simp only [h0, if_true]⟩
  · cases h
    exact ⟨by simpa using hc, by simp only [h0, if_false]⟩

/-! ### The reserve of the operations in progress -/

/-- The blocks an operation may still log: its budget less what it logged. -/
def budgetLeft : Option (List Nat) → Nat
  | some ws => MAXOPBLOCKS - ws.length
  | none => 0

/-- `1` for a process inside an operation. -/
def inOp (o : Option (List Nat)) : Nat := if o.isSome then 1 else 0

@[simp] theorem budgetLeft_none : budgetLeft none = 0 := rfl

@[simp] theorem budgetLeft_some (ws : List Nat) : budgetLeft (some ws) = MAXOPBLOCKS - ws.length := rfl

@[simp] theorem inOp_none : inOp none = 0 := rfl

@[simp] theorem inOp_some (ws : List Nat) : inOp (some ws) = 1 := rfl

/-- What the operations in progress may still add to the log. -/
def LogSys.reserve (s : LogSys) : Nat := ∑ p, budgetLeft (s.writes p)

/-- The operations in progress. -/
def LogSys.ops (s : LogSys) : Nat := ∑ p, inOp (s.writes p)

theorem LogSys.reserve_update (s : LogSys) (lg : Log) (q : Fin NPROC) (v : Option (List Nat)) :
    (⟨lg, Function.update s.writes q v⟩ : LogSys).reserve + budgetLeft (s.writes q) =
      s.reserve + budgetLeft v :=
  Scan.sum_update_add s.writes budgetLeft q v

theorem LogSys.ops_update (s : LogSys) (lg : Log) (q : Fin NPROC) (v : Option (List Nat)) :
    (⟨lg, Function.update s.writes q v⟩ : LogSys).ops + inOp (s.writes q) = s.ops + inOp v :=
  Scan.sum_update_add s.writes inOp q v

theorem budgetLeft_le (o : Option (List Nat)) : budgetLeft o ≤ MAXOPBLOCKS * inOp o := by
  cases o with
  | none => simp
  | some ws => simp

/-- Each operation in progress reserves at most `MAXOPBLOCKS`. -/
theorem LogSys.reserve_le (s : LogSys) : s.reserve ≤ MAXOPBLOCKS * s.ops := by
  unfold LogSys.reserve LogSys.ops
  rw [Finset.mul_sum]
  exact Finset.sum_le_sum fun p _ => budgetLeft_le (s.writes p)

/-- A process inside an operation counts among them. -/
theorem LogSys.ops_pos {s : LogSys} {p : Fin NPROC} {ws : List Nat} (h : s.writes p = some ws) :
    1 ≤ s.ops := by
  have := s.ops_update s.log p none
  rw [h, inOp_some, inOp_none] at this
  omega

/-! ### The invariant -/

/-- What holds between any two steps. -/
structure LogSpace (s : LogSys) : Prop where
  not_committing : s.log.committing = false
  outstanding : s.log.outstanding = s.ops
  budget : ∀ p ws, s.writes p = some ws → ws.length ≤ MAXOPBLOCKS
  logged : ∀ p ws, s.writes p = some ws → ∀ b ∈ ws, b ∈ s.log.lh
  space : s.log.lh.length + s.reserve ≤ LOGSIZE
  size : s.log.size = LOGSIZE
  below_size : s.log.lh.length ≤ s.log.size - 1

theorem logSpace_init : LogSpace LogSys.init := by
  refine ⟨rfl, ?_, fun _ _ h => by simp [LogSys.init] at h, fun _ _ h => by simp [LogSys.init] at h, ?_,
    rfl, by simp [LogSys.init]⟩
  · simp [LogSys.ops, LogSys.init]
  · simp [LogSys.reserve, LogSys.init]

/-- With no operation in progress, no process is in one. -/
theorem LogSys.writes_of_ops_zero {s : LogSys} (h : s.ops = 0) (q : Fin NPROC) : s.writes q = none := by
  cases hq : s.writes q with
  | none => rfl
  | some ws => have := LogSys.ops_pos hq; omega

section Steps

variable {s s' : LogSys}

theorem LogSpace.beginOp (h : LogSpace s) {p : Fin NPROC} (hs : logStep s (.beginOp p) = some s') :
    LogSpace s' := by
  simp only [logStep] at hs
  split_ifs at hs with hp
  obtain ⟨lg, hb, rfl⟩ := Option.map_eq_some_iff.mp hs
  obtain ⟨-, hfull, rfl⟩ := beginOp_spec hb
  have hops := s.ops_update { s.log with outstanding := s.log.outstanding + 1 } p (some [])
  have hres := s.reserve_update { s.log with outstanding := s.log.outstanding + 1 } p (some [])
  have hle := s.reserve_le
  rw [hp, inOp_none, inOp_some] at hops
  rw [hp, budgetLeft_none, budgetLeft_some, List.length_nil, Nat.sub_zero] at hres
  dsimp only at hops hres
  rw [Nat.add_zero] at hops hres
  refine ⟨h.not_committing, ?_, fun q ws hq => ?_, fun q ws hq => ?_, ?_, h.size, h.below_size⟩
  · show s.log.outstanding + 1 = _
    rw [hops, h.outstanding]
    push_cast
    rfl
  · dsimp only at hq
    by_cases hqp : q = p
    · subst hqp
      rw [Function.update_self, Option.some.injEq] at hq
      subst hq
      simp
    · rw [Function.update_of_ne hqp] at hq
      exact h.budget q ws hq
  · dsimp only at hq
    by_cases hqp : q = p
    · subst hqp
      rw [Function.update_self, Option.some.injEq] at hq
      subst hq
      simp
    · rw [Function.update_of_ne hqp] at hq
      exact h.logged q ws hq
  · -- admission: `lh.n + (outstanding + 1) * MAXOPBLOCKS ≤ LOGSIZE`, with `outstanding` the
    -- operations in progress and each reserving at most `MAXOPBLOCKS`
    show s.log.lh.length + _ ≤ _
    have ho := h.outstanding
    rw [ho] at hfull
    unfold LOGSIZE at *
    unfold MAXOPBLOCKS at *
    push_cast at hfull
    omega

theorem LogSpace.logWrite (h : LogSpace s) {p : Fin NPROC} {b : Nat}
    (hs : logStep s (.logWrite p b) = some s') : LogSpace s' := by
  simp only [logStep] at hs
  split at hs
  · rename_i ws hp
    split_ifs at hs with hbud
    obtain ⟨lg, hw, rfl⟩ := Option.map_eq_some_iff.mp hs
    obtain ⟨-, hsz, -, rfl⟩ := logWrite_spec hw
    have hops := s.ops_update { s.log with lh := absorb s.log.lh b } p (some (ws.insert b))
    have hres := s.reserve_update { s.log with lh := absorb s.log.lh b } p (some (ws.insert b))
    rw [hp, inOp_some, inOp_some] at hops
    rw [hp, budgetLeft_some, budgetLeft_some] at hres
    dsimp only at hops hres
    refine ⟨h.not_committing, ?_, fun q ws' hq => ?_, fun q ws' hq => ?_, ?_, h.size, ?_⟩
    · show s.log.outstanding = _
      have := h.outstanding
      omega
    · dsimp only at hq
      by_cases hqp : q = p
      · subst hqp
        rw [Function.update_self, Option.some.injEq] at hq
        exact hq ▸ hbud
      · rw [Function.update_of_ne hqp] at hq
        exact h.budget q ws' hq
    · dsimp only at hq
      intro x hx
      show x ∈ absorb s.log.lh b
      rw [mem_absorb]
      by_cases hqp : q = p
      · subst hqp
        rw [Function.update_self, Option.some.injEq] at hq
        subst hq
        rcases List.mem_insert_iff.mp hx with rfl | hx
        · exact Or.inr rfl
        · exact Or.inl (h.logged q ws hp x hx)
      · rw [Function.update_of_ne hqp] at hq
        exact Or.inl (h.logged q ws' hq x hx)
    · -- a block new to the operation takes one block of its reserve; a repeated one is in the
      -- header already
      show (absorb s.log.lh b).length + _ ≤ _
      have hspace := h.space
      by_cases hb : b ∈ ws
      · have hins : (ws.insert b).length = ws.length := by rw [List.insert_of_mem hb]
        have habs : (absorb s.log.lh b).length = s.log.lh.length := by
          rw [absorb_eq, if_pos (h.logged p ws hp b hb)]
        omega
      · rw [List.length_insert_of_not_mem hb] at hres hbud
        have := length_absorb_le s.log.lh b
        unfold MAXOPBLOCKS at *
        omega
    · show (absorb s.log.lh b).length ≤ s.log.size - 1
      have := length_absorb_le s.log.lh b
      omega
  · cases hs

theorem LogSpace.endOp (h : LogSpace s) {p : Fin NPROC} (hs : logStep s (.endOp p) = some s') :
    LogSpace s' := by
  simp only [logStep] at hs
  split at hs
  · rename_i ws hp
    obtain ⟨r, he, rfl⟩ := Option.map_eq_some_iff.mp hs
    obtain ⟨-, hr⟩ := endOp_log he
    have hops := s.ops_update r.1 p none
    have hres := s.reserve_update r.1 p none
    have hle := (⟨r.1, Function.update s.writes p none⟩ : LogSys).reserve_le
    rw [hp, inOp_some, inOp_none] at hops
    rw [hp, budgetLeft_some, budgetLeft_none] at hres
    have hout : r.1.outstanding = s.log.outstanding - 1 := by rw [hr]; split <;> rfl
    have hsize : r.1.size = s.log.size := by rw [hr]; split <;> rfl
    have hcomm : r.1.committing = false := by rw [hr]; split <;> exact h.not_committing
    -- the last operation commits, and the header is empty again
    have hlh : r.1.lh = if s.log.outstanding - 1 = 0 then [] else s.log.lh := by rw [hr]; split <;> rfl
    refine ⟨hcomm, ?_, fun q ws' hq => ?_, fun q ws' hq => ?_, ?_, hsize.trans h.size, ?_⟩
    · show r.1.outstanding = _
      rw [hout, h.outstanding]
      omega
    · by_cases hqp : q = p
      · subst hqp
        simp at hq
      · simp only [Function.update_of_ne hqp] at hq
        exact h.budget q ws' hq
    · by_cases hqp : q = p
      · subst hqp
        simp at hq
      · simp only [Function.update_of_ne hqp] at hq
        intro x hx
        rw [hlh]
        split
        · -- no operation is left, `q`'s included
          rename_i h0
          have hz : (⟨r.1, Function.update s.writes p none⟩ : LogSys).ops = 0 := by
            have := h.outstanding
            omega
          have := LogSys.writes_of_ops_zero hz q
          simp only [Function.update_of_ne hqp] at this
          rw [this] at hq
          cases hq
        · exact h.logged q ws' hq x hx
    · show r.1.lh.length + _ ≤ _
      rw [hlh]
      split
      · rename_i h0
        have hz : (⟨r.1, Function.update s.writes p none⟩ : LogSys).ops = 0 := by
          have := h.outstanding
          omega
        rw [hz] at hle
        simp only [List.length_nil]
        omega
      · have := h.space
        omega
    · show r.1.lh.length ≤ r.1.size - 1
      rw [hlh, hsize]
      split
      · simp
      · exact h.below_size
  · cases hs

theorem LogSpace.step (h : LogSpace s) : ∀ {op : LogOp}, logStep s op = some s' → LogSpace s'
  | .beginOp _, hs => h.beginOp hs
  | .logWrite _ _, hs => h.logWrite hs
  | .endOp _, hs => h.endOp hs

end Steps

theorem LogReachable.logSpace {s : LogSys} (h : LogReachable s) : LogSpace s :=
  LTS.Reachable.inv logSpace_init (fun _ _ _ hs e => hs.step e) h

/-- Whatever the interleaving, a `log_write` made inside an operation and within its budget
finds `lh.n < LOGSIZE` and `outstanding ≥ 1`.  For a block new to the operation the bound is
the reserve `begin_op` admitted it with: `lh.n + 1 ≤ LOGSIZE`. -/
theorem log_write_within_budget {s : LogSys} (h : LogReachable s) {p : Fin NPROC} {ws : List Nat}
    {b : Nat} (hp : s.writes p = some ws) (hb : (ws.insert b).length ≤ MAXOPBLOCKS) :
    s.log.lh.length < LOGSIZE ∧ 1 ≤ s.log.outstanding ∧ (b ∉ ws → s.log.lh.length + 1 ≤ LOGSIZE) := by
  have hl := h.logSpace
  have hops := s.ops_update s.log p none
  rw [hp, inOp_some, inOp_none] at hops
  have hres := s.reserve_update s.log p none
  rw [hp, budgetLeft_some, budgetLeft_none] at hres
  have hsp := hl.space
  have hbs := hl.below_size
  rw [hl.size] at hbs
  refine ⟨by unfold LOGSIZE MAXOPBLOCKS at *; omega, by rw [hl.outstanding]; omega, fun hnew => ?_⟩
  rw [List.length_insert_of_not_mem hnew] at hb
  omega

/-- `n` distinct blocks from block `b` on. -/
def opBlocks (b n : Nat) : List Nat := (List.range n).map (b + ·)

/-- Three processes begin an operation each at `lh.n = 0`; the first two log `MAXOPBLOCKS`
distinct blocks each, the third one block less. -/
def fullLogRun : List LogOp :=
  [.beginOp 0, .beginOp 1, .beginOp 2] ++ (opBlocks 100 10).map (.logWrite 0) ++
    (opBlocks 110 10).map (.logWrite 1) ++ (opBlocks 120 9).map (.logWrite 2)

set_option maxRecDepth 4000 in
/-- On the log `mkfs` lays out, the third operation's last block is within its budget, and
`log_write` panics on it: `lh.n = log.size - 1`. -/
theorem log_write_panics_at_size :
    ∃ s, LogReachable s ∧ s.writes 2 = some (opBlocks 120 9).reverse ∧
      ((opBlocks 120 9).reverse.insert 129).length ≤ MAXOPBLOCKS ∧ s.log.outstanding = 3 ∧
      s.log.size = LOGSIZE ∧ s.log.lh.length = s.log.size - 1 ∧ logWrite s.log 129 = none :=
  LTS.exists_reachable_of_run fullLogRun (by decide)

end Xv6Sched
