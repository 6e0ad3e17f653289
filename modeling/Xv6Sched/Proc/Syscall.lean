import Xv6Sched.Proc.Defs
import Mathlib.Tactic.IntervalCases

/-!
# Xv6Sched.Proc.Syscall — system call dispatch and its trace (`kernel/syscall.c`)

`syscall()` reads the call number from `a7`, saves `argraw(0)`, runs the handler, stores its
result in `a0`, and, when bit `num` of `p->Trace` is set, prints a line with the call's name, the
saved first argument, `argraw(i)` for `1 ≤ i < SystemcallArgs[num]`, and `a0`.

The handlers are the parameter `sysfn`: each may change the process (`sys_trace` sets `Trace`)
and its trapframe (`exec` sets `a1` to the new `argv`), and returns the value for `a0`.  The trace
line depends on nothing else they do.

`argsRead` is the number of argument positions each handler reads through `argint`, `argaddr`,
`argstr` and `argfd`, read off `sysproc.c` and `sysfile.c`; it is what the arity table
`SystemcallArgs` is meant to state.  `syscall_traced` says what a traced call prints;
`shown_eq_of_agree` when that is exactly the arguments the handler read.
-/

namespace Xv6Sched

/-- The registers of `struct trapframe` that system calls read and write: the arguments `a0`–`a5`
and the call number `a7`. -/
structure Trapframe where
  a0 : UInt64
  a1 : UInt64
  a2 : UInt64
  a3 : UInt64
  a4 : UInt64
  a5 : UInt64
  a7 : UInt64
deriving DecidableEq, Repr

/-- `argraw(n)`; `none` is its `panic("argraw")`. -/
def argraw (tf : Trapframe) : Nat → Option UInt64
  | 0 => some tf.a0
  | 1 => some tf.a1
  | 2 => some tf.a2
  | 3 => some tf.a3
  | 4 => some tf.a4
  | 5 => some tf.a5
  | _ => none

/-- A `uint64` where an `int` is taken (`int num = a7`, `int arg1 = argraw(0)`, and every `%d`
of `printf`, which reads an `int`): its low 32 bits, signed. -/
def asInt (x : UInt64) : Int32 := x.toUInt32.toInt32

/-- `SystemcallNames`. -/
def SystemcallNames : List String :=
  [" ", "fork", "exit", "wait", "pipe", "read", "kill", "exec", "fstat", "chdir", "dup", "getpid",
    "sbrk", "sleep", "uptime", "open", "write", "mknod", "unlink", "link", "mkdir", "close",
    "trace", "set_priority", "waitx"]

/-- `SystemcallArgs`: how many arguments the trace line shows for each call number. -/
def SystemcallArgs : List Nat :=
  [0, 0, 1, 1, 1, 3, 1, 2, 2, 1, 1, 0, 1, 2, 0, 2, 3, 3, 1, 2, 1, 1, 1, 2, 3]

/-- The argument positions the handler of each call number reads (`sys_read` reads 0, 1 and 2;
`sys_sleep` reads 0; `sys_getpid` none; and so on). -/
def argsRead : List Nat :=
  [0, 0, 1, 1, 1, 3, 1, 2, 2, 1, 1, 0, 1, 1, 0, 2, 3, 3, 1, 2, 1, 1, 1, 2, 3]

/-- What `syscall` prints. -/
inductive Printed where
  /-- `"%d: syscall %s (%d" ... ") -> %d\n"`. -/
  | trace (pid : Int32) (name : String) (args : List Int32) (ret : Int32)
  /-- `"%d %s: unknown sys call %d\n"`. -/
  | unknown (pid : Int32) (name : String) (num : Int32)
deriving DecidableEq, Repr

/-- `syscall()` for the process `p` (whose `name` the model does not keep) with trapframe `tf`:
the process and trapframe after, and the line printed, if any.  `none` is a panic. -/
def syscall (sysfn : Nat → Proc → Trapframe → UInt64 × Proc × Trapframe) (name : String)
    (p : Proc) (tf : Trapframe) : Option (Proc × Trapframe × Option Printed) :=
  let num := asInt tf.a7
  -- `num > 0 && num < NELEM(syscalls) && syscalls[num]`: entries 1 to 24 are all filled
  if 0 < num ∧ num < 25 then
    let arg1 := asInt tf.a0
    let r := sysfn num.toInt.toNat p tf
    let p' := r.2.1
    let tf' := { r.2.2 with a0 := r.1 }
    if p'.trace &&& (1 <<< num) ≠ 0 then
      ((List.range' 1 (SystemcallArgs.getD num.toInt.toNat 0 - 1)).mapM (argraw tf')).map
        fun rest => (p', tf', some (.trace p'.pid (SystemcallNames.getD num.toInt.toNat "")
          (arg1 :: rest.map asInt) (asInt tf'.a0)))
    else some (p', tf', none)
  else some (p, { tf with a0 := -1 }, some (.unknown p.pid name num))

/-- The registers the trace loop reads, as `argraw` gives them. -/
def Trapframe.reg (tf : Trapframe) (i : Nat) : UInt64 := (argraw tf i).getD 0

/-- The arguments a traced call of number `n` shows: the first argument as it was at entry, then
the others as the handler left them. -/
def shown (tf tf' : Trapframe) (n : Nat) : List Int32 :=
  asInt tf.a0 :: (List.range' 1 (SystemcallArgs.getD n 0 - 1)).map fun i => asInt (tf'.reg i)

theorem systemcallArgs_le (n : Nat) : SystemcallArgs.getD n 0 ≤ 3 := by
  rcases Nat.lt_or_ge n 25 with hn | hn
  · interval_cases n <;> decide
  · simp only [SystemcallArgs, List.getD_eq_getElem?_getD]
    rw [List.getElem?_eq_none (by simp; omega)]
    simp

/-- Below `6`, the trace loop's `argraw` never panics. -/
theorem mapM_argraw (tf : Trapframe) {m : Nat} (hm : m ≤ 5) :
    (List.range' 1 m).mapM (argraw tf) = some ((List.range' 1 m).map tf.reg) := by
  interval_cases m <;> rfl

/-- What `syscall` does with a call number in `[1, 24]`: it runs the handler, stores its result
in `a0`, and prints the name, `shown`, and `a0` exactly when the mask after the call has the bit. -/
theorem syscall_traced (sysfn : Nat → Proc → Trapframe → UInt64 × Proc × Trapframe)
    (name : String) (p : Proc) (tf : Trapframe) {n : Nat} (hn : (asInt tf.a7).toInt = n)
    (h0 : 0 < n) (h1 : n < 25) :
    syscall sysfn name p tf =
      let r := sysfn n p tf
      let tf' := { r.2.2 with a0 := r.1 }
      some (r.2.1, tf',
        if r.2.1.trace &&& (1 <<< asInt tf.a7) ≠ 0 then
          some (.trace r.2.1.pid (SystemcallNames.getD n "") (shown tf tf' n) (asInt r.1))
        else none) := by
  have hr0 : 0 < asInt tf.a7 := Int32.lt_iff_toInt_lt.mpr (by simp; omega)
  have hr1 : asInt tf.a7 < 25 := Int32.lt_iff_toInt_lt.mpr (by simp; omega)
  have hnat : (asInt tf.a7).toInt.toNat = n := by omega
  simp only [syscall, hr0, hr1, and_self, if_true, hnat]
  split_ifs with hbit
  · rw [mapM_argraw _ (by have := systemcallArgs_le n; omega)]
    simp [shown]
  · rfl

/-- A traced line shows `SystemcallArgs[n]` arguments, and one for a call of none: `arg1` is
printed whatever the table says. -/
theorem length_shown (tf tf' : Trapframe) (n : Nat) :
    (shown tf tf' n).length = max 1 (SystemcallArgs.getD n 0) := by
  simp only [shown, List.length_cons, List.length_map, List.length_range']
  omega

/-- The arity table and the handlers agree on every call number but `SYS_sleep`, whose handler
reads one argument where the table says two. -/
theorem systemcallArgs_eq_argsRead_iff :
    ∀ n < 25, SystemcallArgs.getD n 0 = argsRead.getD n 0 ↔ n ≠ 13 := by
  decide

/-- Where the table is right, the handler reads an argument, and it leaves `a1`–`a5` as they
were, the line shows exactly the arguments the handler read, as they were at entry. -/
theorem shown_eq_of_agree {tf tf' : Trapframe} {n : Nat}
    (htab : SystemcallArgs.getD n 0 = argsRead.getD n 0) (hpos : 1 ≤ argsRead.getD n 0)
    (hregs : ∀ i, 1 ≤ i → tf'.reg i = tf.reg i) :
    shown tf tf' n = (List.range (argsRead.getD n 0)).map fun i => asInt (tf.reg i) := by
  obtain ⟨k, hk⟩ : ∃ k, argsRead.getD n 0 = k + 1 := ⟨_, (Nat.succ_pred_eq_of_pos hpos).symm⟩
  rw [shown, htab, hk, List.range_eq_range', List.range'_succ, Nat.add_sub_cancel,
    List.map_cons]
  congr 1
  refine List.map_congr_left fun i hi => ?_
  rw [hregs i (List.mem_range'_1.mp hi).1]

/-- With every bit of the mask set (`trace(2147483647)`), three calls print other arguments than
their handlers read: `sleep`, which reads one, shows two, the second whatever `a1` holds;
`getpid`, which reads none, shows `a0`; and `exec` shows as its second argument the `argv` it
built, which it left in `a1`, not the one it was passed. -/
theorem trace_line_misreports_arguments
    (sysfn : Nat → Proc → Trapframe → UInt64 × Proc × Trapframe) (name : String) (p : Proc)
    (tf : Trapframe) (ret argc sp : UInt64) (hmask : p.trace = 2147483647)
    (hsleep : sysfn 13 p { tf with a7 := 13 } = (0, p, { tf with a7 := 13 }))
    (hgetpid : sysfn 11 p { tf with a7 := 11 } = (ret, p, { tf with a7 := 11 }))
    (hexec : sysfn 7 p { tf with a7 := 7 } = (argc, p, { tf with a7 := 7, a1 := sp })) :
    (syscall sysfn name p { tf with a7 := 13 } = some (p, { tf with a7 := 13, a0 := 0 },
        some (.trace p.pid "sleep" [asInt tf.a0, asInt tf.a1] 0)) ∧ argsRead.getD 13 0 = 1) ∧
    (syscall sysfn name p { tf with a7 := 11 } = some (p, { tf with a7 := 11, a0 := ret },
        some (.trace p.pid "getpid" [asInt tf.a0] (asInt ret))) ∧ argsRead.getD 11 0 = 0) ∧
    syscall sysfn name p { tf with a7 := 7 } = some (p, { tf with a7 := 7, a1 := sp, a0 := argc },
        some (.trace p.pid "exec" [asInt tf.a0, asInt sp] (asInt argc))) := by
  refine ⟨⟨?_, rfl⟩, ⟨?_, rfl⟩, ?_⟩
  · rw [syscall_traced sysfn name p _ (n := 13) rfl (by decide) (by decide)]
    simp only [hsleep, hmask]
    rfl
  · rw [syscall_traced sysfn name p _ (n := 11) rfl (by decide) (by decide)]
    simp only [hgetpid, hmask]
    rfl
  · rw [syscall_traced sysfn name p _ (n := 7) rfl (by decide) (by decide)]
    simp only [hexec, hmask]
    rfl

/-- The handlers as far as the trace line sees them: `exec` returns `argc = 2` with `argv` at
`0x3fd0` in `a1`, `getpid` returns the pid, `sleep` returns `0`. -/
def traceDemoFn (n : Nat) (p : Proc) (tf : Trapframe) : UInt64 × Proc × Trapframe :=
  if n = 7 then (2, p, { tf with a1 := 0x3fd0 })
  else if n = 11 then (5, p, tf)
  else (0, p, tf)

theorem trace_line_misreports_arguments_sleep :
    (syscall traceDemoFn "sh" { Proc.zero with pid := 5, trace := 2147483647 }
        ⟨5, 7, 0, 0, 0, 0, 13⟩ =
      some ({ Proc.zero with pid := 5, trace := 2147483647 }, ⟨0, 7, 0, 0, 0, 0, 13⟩,
        some (.trace 5 "sleep" [5, 7] 0)) ∧ argsRead.getD 13 0 = 1) ∧
    (syscall traceDemoFn "sh" { Proc.zero with pid := 5, trace := 2147483647 }
        ⟨5, 7, 0, 0, 0, 0, 11⟩ =
      some ({ Proc.zero with pid := 5, trace := 2147483647 }, ⟨5, 7, 0, 0, 0, 0, 11⟩,
        some (.trace 5 "getpid" [5] 5)) ∧ argsRead.getD 11 0 = 0) ∧
    syscall traceDemoFn "sh" { Proc.zero with pid := 5, trace := 2147483647 }
        ⟨5, 7, 0, 0, 0, 0, 7⟩ =
      some ({ Proc.zero with pid := 5, trace := 2147483647 }, ⟨2, 0x3fd0, 0, 0, 0, 0, 7⟩,
        some (.trace 5 "exec" [5, 0x3fd0] 2)) :=
  trace_line_misreports_arguments traceDemoFn "sh" { Proc.zero with pid := 5, trace := 2147483647 }
    ⟨5, 7, 0, 0, 0, 0, 0⟩ 5 2 0x3fd0 rfl rfl rfl rfl

end Xv6Sched
