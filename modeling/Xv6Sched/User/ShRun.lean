import Xv6Sched.File.Fds
import Xv6Sched.User.ShGrammar

/-!
# Xv6Sched.User.ShRun — `runcmd` of `user/sh.c`

`runcmd` walks the tree `parsecmd` built, one process per subtree that it forks: a `redircmd`
closes its descriptor and opens its file, relying on `open` to take the lowest free
descriptor, which is the one just closed; a `pipecmd` makes a pipe and forks a child for each
side, which moves its end onto descriptor 1 or 0 with `close` and `dup` and closes the two
descriptors `pipe` returned; a `listcmd` forks the left side and waits for it; a `backcmd`
forks and does not wait.  A node of the tree is the path to it from the root (`0` for the first
child, `1` for the second), and the files `runcmd` makes are named by their node (`Obj`).

What each process does with its descriptors does not depend on how the processes interleave:
each has its own, and a child gets a copy.  So `runcmd` is a function of the tree, the shell's
descriptors and what the rest of the system answers at each node (`Env`: whether a `fork`, a
`pipe` or an `open` succeeds), and its result is every `exec` and every `wait` of the processes
of the tree, with the descriptors each has then (`Event`).

`runSpec` says what the descriptor juggling is for: every command starts with the shell's
descriptors, except that the left side of a pipe has its write end on descriptor 1, the right
side its read end on descriptor 0, and a redirection its file on its descriptor, an inner
construct overriding an outer one.  `runcmd_eq_runSpec`: from descriptors 0, 1 and 2 open and
two free (`StdFds`), `runcmd` does exactly that.  Consequences: every command and every waiting
shell holds 0, 1 and 2, and nothing else the shell did not hold (`runcmd_std_fds`); a pipe's
write end is held only by the commands on its left, on descriptor 1, and its read end only by
those on its right, on descriptor 0, so the reader sees end of file once the writers are done
(`runcmd_pipe_ends`); of several redirections of one descriptor the first one written wins
(`runcmd_first_redir`).
-/

namespace Xv6Sched.Sh

/-- What a descriptor of a process under the shell holds: a file the shell was given, or one
`runcmd` made at the node `node` of the tree: the read or the write end of the pipe of a
`pipecmd`, or the file of a `redircmd`, opened from the string at `file` with `mode`. -/
inductive Obj (α : Type) where
  | given (a : α)
  | pipeRead (node : List Nat)
  | pipeWrite (node : List Nat)
  | file (node : List Nat) (file mode : Nat)
deriving DecidableEq, Repr

/-- What the rest of the system answers at each node of the tree: whether `fork` of the child
at that node succeeds, whether the kernel makes the pipe of the `pipecmd` there (file entries
and a page), and whether the file of the `redircmd` there opens (it exists or is created, and
the file table has an entry).  Each node runs once, so this is all a run can depend on besides
the descriptors. -/
structure Env where
  forks : List Nat → Bool
  pipes : List Nat → Bool
  opens : List Nat → Bool

/-- What a process of the tree does that its descriptors matter for. -/
inductive Act where
  /-- `exec(argv[0], argv)`: the command runs with the process's descriptors -/
  | exec (argv : List (Nat × Nat))
  /-- `wait(0)`: the process blocks, holding its descriptors -/
  | wait
deriving DecidableEq, Repr

/-- An act of the process at the node `node` of the tree, with the descriptors it has then. -/
structure Event (α : Type) where
  node : List Nat
  act : Act
  fds : Fds (Obj α)

variable {α : Type}

/-- What a child of a `pipecmd` does before its `runcmd`: `close(fd); dup(e); close(p[0]);
close(p[1]);`, with `fd` the descriptor its end goes to and `e` the descriptor of that end. -/
def pipeChild (t : Fds (Obj α)) (fd : Nat) (e p0 p1 : Fin NOFILE) : Fds (Obj α) :=
  (Fds.close (Fds.close (Fds.dup (Fds.close t fd).2 (e : Nat)).2 (p0 : Nat)).2 (p1 : Nat)).2

/-- `runcmd(cmd)` at the node `node`, in a process with the descriptors `t`: the acts of this
process and of every process it forks, in the order they begin.  A child changes only its own
descriptors; `exit`, `panic` and a failed `fork1` end a process, and nothing after them in it
happens.  An `exec` that fails ends its process with `exit(0)`. -/
def runcmd (env : Env) (node : List Nat) : Cmd → Fds (Obj α) → List (Event α)
  | .exec argv, t =>
    -- `if(ecmd->argv[0] == 0) exit(1);`
    if argv = [] then [] else [⟨node, .exec argv, t⟩]
  | .redir cmd file _ mode fd, t =>
    let r := Fds.open (env.opens node) (Fds.close t fd).2 (.file node file mode)
    -- `open %s failed`, then `exit(1)`
    if r.1 < 0 then [] else runcmd env (node ++ [0]) cmd r.2
  | .list left right, t =>
    -- the child runs `left`; the parent waits for it and runs `right` itself
    if env.forks (node ++ [0]) then
      runcmd env (node ++ [0]) left t ++ ⟨node, .wait, t⟩ :: runcmd env (node ++ [1]) right t
    else []
  | .pipe left right, t =>
    match Fds.pipe (env.pipes node) t (.pipeRead node) (.pipeWrite node) with
    | none => []
    | some (p0, p1, t) =>
      if env.forks (node ++ [0]) then
        runcmd env (node ++ [0]) left (pipeChild t 1 p1 p0 p1) ++
          if env.forks (node ++ [1]) then
            runcmd env (node ++ [1]) right (pipeChild t 0 p0 p0 p1) ++
              -- `close(p[0]); close(p[1]); wait(0); wait(0);`
              let t := (Fds.close (Fds.close t (p0 : Nat)).2 (p1 : Nat)).2
              [⟨node, .wait, t⟩, ⟨node, .wait, t⟩]
          else []
      else []
  | .back cmd, t =>
    if env.forks (node ++ [0]) then runcmd env (node ++ [0]) cmd t else []

/-! ### What `runcmd` is for -/

section Spec

variable {β : Type}

/-- Descriptor `fd` of `t` set to `o`. -/
def setFd (t : Fds β) (fd : Nat) (o : β) : Fds β := fun i => if i.val = fd then some o else t i

/-- `runcmd` as its descriptors are meant to come out: each command starts with the shell's
descriptors, but for descriptor 1 on the left of a pipe (its write end), descriptor 0 on its
right (its read end) and the descriptor of each redirection (its file); the innermost wins. -/
def runSpec (env : Env) (node : List Nat) : Cmd → Fds (Obj α) → List (Event α)
  | .exec argv, t => if argv = [] then [] else [⟨node, .exec argv, t⟩]
  | .redir cmd file _ mode fd, t =>
    if env.opens node then runSpec env (node ++ [0]) cmd (setFd t fd (.file node file mode)) else []
  | .list left right, t =>
    if env.forks (node ++ [0]) then
      runSpec env (node ++ [0]) left t ++ ⟨node, .wait, t⟩ :: runSpec env (node ++ [1]) right t
    else []
  | .pipe left right, t =>
    if env.pipes node && env.forks (node ++ [0]) then
      runSpec env (node ++ [0]) left (setFd t 1 (.pipeWrite node)) ++
        if env.forks (node ++ [1]) then
          runSpec env (node ++ [1]) right (setFd t 0 (.pipeRead node)) ++
            [⟨node, .wait, t⟩, ⟨node, .wait, t⟩]
        else []
    else []
  | .back cmd, t => if env.forks (node ++ [0]) then runSpec env (node ++ [0]) cmd t else []

/-- The descriptors of a shell process while `runcmd` runs: 0, 1 and 2 open, and two free for a
pipe.  `main` opens `console` until it gets a descriptor past 2, which it closes again. -/
structure StdFds (t : Fds β) : Prop where
  std : ∀ i : Fin NOFILE, i.val < 3 → t i ≠ none
  spare : ∃ i j : Fin NOFILE, i ≠ j ∧ t i = none ∧ t j = none

/-- Every `redircmd` of the tree redirects descriptor 0 or 1, as `parseredirs` makes them. -/
def Cmd.StdRedirs : Cmd → Prop
  | .exec _ => True
  | .redir cmd _ _ _ fd => fd < 2 ∧ cmd.StdRedirs
  | .pipe left right => left.StdRedirs ∧ right.StdRedirs
  | .list left right => left.StdRedirs ∧ right.StdRedirs
  | .back cmd => cmd.StdRedirs

variable {t : Fds β} {fd : Nat} {i p0 p1 e : Fin NOFILE}

theorem setFd_of_ne {o : β} (h : i.val ≠ fd) : setFd t fd o i = t i := if_neg h

theorem setFd_self {o : β} (h : i.val = fd) : setFd t fd o i = some o := if_pos h

/-- A free descriptor of a shell process is past 2. -/
theorem StdFds.three_le (ht : StdFds t) (h : t i = none) : 3 ≤ i.val :=
  Nat.le_of_not_lt fun hlt => ht.std i hlt h

theorem StdFds.setFd (ht : StdFds t) (hfd : fd < 3) (o : β) : StdFds (setFd t fd o) where
  std i hi := by
    by_cases h : i.val = fd
    · rw [setFd_self h]; exact Option.some_ne_none o
    · rw [setFd_of_ne h]; exact ht.std i hi
  spare := by
    obtain ⟨i, j, hij, hi, hj⟩ := ht.spare
    refine ⟨i, j, hij, ?_, ?_⟩
    · rw [setFd_of_ne (by have := ht.three_le hi; omega), hi]
    · rw [setFd_of_ne (by have := ht.three_le hj; omega), hj]

theorem StdFds.map {γ : Type} (ht : StdFds t) (g : β → γ) : StdFds fun i => (t i).map g where
  std i hi := by simpa using ht.std i hi
  spare := by
    obtain ⟨i, j, hij, hi, hj⟩ := ht.spare
    exact ⟨i, j, hij, by simp [hi], by simp [hj]⟩

/-- After `close(fd)` the lowest free descriptor is `fd` again, so `open` puts its file there. -/
theorem open_close (ht : StdFds t) (hfd : fd < 3) (ok : Bool) (o : β) :
    Fds.open ok (Fds.close t fd).2 o =
      if ok then ((fd : Int), setFd t fd o) else (-1, (Fds.close t fd).2) := by
  have hlt : fd < NOFILE := by unfold NOFILE; omega
  rw [Fds.close_natCast hlt]
  cases ok with
  | false => rfl
  | true =>
    have hlow : ∀ j, j < (⟨fd, hlt⟩ : Fin NOFILE) → Function.update t ⟨fd, hlt⟩ none j ≠ none := by
      intro j hj
      rw [Function.update_of_ne (Fin.ne_of_lt hj)]
      exact ht.std j (by have : j.val < fd := hj; omega)
    simp only [Fds.open, if_true, Slots.alloc_lowest (Function.update_self _ _ _) hlow,
      Function.update_idem]
    congr 2
    funext i
    by_cases h : i.val = fd
    · rw [setFd_self h, Fin.ext (h.trans rfl : i.val = (⟨fd, hlt⟩ : Fin NOFILE).val),
        Function.update_self]
    · rw [setFd_of_ne h, Function.update_of_ne (fun e => h (congrArg Fin.val e))]

/-- A shell process's `pipe` takes two free descriptors past 2. -/
theorem StdFds.pipe (ht : StdFds t) (r w : β) :
    ∃ p0 p1, Fds.pipe true t r w =
        some (p0, p1, Function.update (Function.update t p0 (some r)) p1 (some w)) ∧
      t p0 = none ∧ t p1 = none ∧ p0 ≠ p1 := by
  obtain ⟨i, j, hij, hi, hj⟩ := ht.spare
  obtain ⟨p0, p1, t', hp⟩ := Fds.pipe_isSome (r := r) (w := w) hi hj hij
  obtain ⟨-, h0, h1, rfl⟩ := Fds.pipe_eq_some hp
  obtain ⟨hf0, -, -⟩ := Slots.alloc_eq_some.mp h0
  obtain ⟨hf1, -, -⟩ := Slots.alloc_eq_some.mp h1
  -- `p1` was free after `p0` was taken
  have hne : p0 ≠ p1 := by
    rintro rfl
    rw [Function.update_self] at hf1
    cases hf1
  exact ⟨p0, p1, hp, hf0, by rwa [Function.update_of_ne hne.symm] at hf1, hne⟩

end Spec

/-! ### The descriptor steps of each case -/

section Steps

variable {t : Fds (Obj α)} {fd : Nat} {p0 p1 e : Fin NOFILE} {r w o : Obj α}

/-- A child of a `pipecmd` ends up with the end `e` of the pipe on descriptor `fd` and no other
descriptor to the pipe: `close(fd)` frees `fd`, `dup` fills it as the lowest free descriptor,
and the two `close`s give back the two descriptors `pipe` took. -/
theorem pipeChild_eq (ht : StdFds t) (hfd : fd < 3) (hp0 : t p0 = none) (hp1 : t p1 = none)
    (hne : p0 ≠ p1) (he : e = p0 ∨ e = p1)
    (ho : Function.update (Function.update t p0 (some r)) p1 (some w) e = some o) :
    pipeChild (Function.update (Function.update t p0 (some r)) p1 (some w)) fd e p0 p1 =
      setFd t fd o := by
  obtain ⟨d, rfl⟩ : ∃ d : Fin NOFILE, d.val = fd := ⟨⟨fd, by unfold NOFILE; omega⟩, rfl⟩
  have h30 := ht.three_le hp0
  have h31 := ht.three_le hp1
  have hd0 : d ≠ p0 := fun h => by subst h; omega
  have hd1 : d ≠ p1 := fun h => by subst h; omega
  have hde : d ≠ e := by rcases he with rfl | rfl <;> assumption
  -- below `d` every descriptor is one of 0, 1, 2, none of them the pipe's
  have hlow : ∀ j, j < d →
      Function.update (Function.update (Function.update t p0 (some r)) p1 (some w)) d none j ≠ none := by
    intro j hj
    have hjd : j.val < d.val := hj
    have hj0 : j ≠ p0 := fun h => by rw [h] at hjd; omega
    have hj1 : j ≠ p1 := fun h => by rw [h] at hjd; omega
    rw [Function.update_of_ne (Fin.ne_of_lt hj), Function.update_of_ne hj1,
      Function.update_of_ne hj0]
    exact ht.std j (by omega)
  have hdup := Fds.dup_of_lowest (by rw [Function.update_of_ne hde.symm]; exact ho)
    (Function.update_self ..) hlow
  unfold pipeChild
  rw [Fds.close_natCast d.isLt, Fin.eta, hdup, Fds.close_natCast p0.isLt,
    Fds.close_natCast p1.isLt]
  funext i
  simp only [Fin.eta, Function.update_apply, setFd]
  by_cases h1 : i = p1
  · subst h1
    have hv : i.val ≠ d.val := by omega
    simp [hv, hp1]
  by_cases h0 : i = p0
  · subst h0
    have hv : i.val ≠ d.val := by omega
    simp [hv, hp0]
  by_cases hi : i = d
  · subst hi
    simp [hd0, hd1]
  · simp [h0, h1, hi, Fin.val_ne_of_ne hi]

/-- The parent of a `pipecmd` closes both descriptors `pipe` gave it, and so holds what it held
before. -/
theorem pipeParent_eq (hp0 : t p0 = none) (hp1 : t p1 = none) (hne : p0 ≠ p1) :
    (Fds.close (Fds.close (Function.update (Function.update t p0 (some r)) p1 (some w))
      (p0 : Nat)).2 (p1 : Nat)).2 = t := by
  rw [Fds.close_natCast p0.isLt, Fds.close_natCast p1.isLt]
  simp only [Fin.eta]
  rw [Function.update_comm hne.symm, Function.update_idem, Slots.update_update_of_none hp0]
  exact Function.update_eq_self_iff.mpr hp1.symm

end Steps

/-! ### `runcmd` does what it is for -/

section Refine

variable (env : Env)

/-- From descriptors 0, 1, 2 open and two free, `runcmd` of a tree whose redirections are of
descriptors 0 and 1 gives every process the descriptors `runSpec` says, at every node and for
every answer of the system: the closes, `dup`s and lowest-free-descriptor rule of the code put
each file on its descriptor and leave nothing else behind. -/
theorem runcmd_eq_runSpec (c : Cmd) (node : List Nat) (t : Fds (Obj α)) (ht : StdFds t)
    (hc : c.StdRedirs) : runcmd env node c t = runSpec env node c t := by
  induction c generalizing node t with
  | exec argv => rfl
  | redir cmd file efile mode fd ih =>
    obtain ⟨hfd, hc⟩ := hc
    rw [runcmd, runSpec, open_close ht (by omega)]
    cases env.opens node with
    | false => simp
    | true =>
      simp only [if_true, Int.natCast_nonneg, not_lt.mpr, if_false]
      exact ih _ _ (ht.setFd (by omega) _) hc
  | list left right ihl ihr =>
    obtain ⟨hl, hr⟩ := hc
    rw [runcmd, runSpec, ihl _ _ ht hl, ihr _ _ ht hr]
  | pipe left right ihl ihr =>
    obtain ⟨hl, hr⟩ := hc
    rw [runcmd, runSpec]
    cases hp : env.pipes node with
    | false => simp [Fds.pipe]
    | true =>
      obtain ⟨p0, p1, hpipe, hf0, hf1, hne⟩ := ht.pipe (Obj.pipeRead node) (Obj.pipeWrite node)
      have hl' := pipeChild_eq (r := Obj.pipeRead node) (w := Obj.pipeWrite node)
        (o := Obj.pipeWrite node) ht (by omega : 1 < 3) hf0 hf1 hne (.inr rfl) (Function.update_self _ _ _)
      have hr' := pipeChild_eq (r := Obj.pipeRead node) (w := Obj.pipeWrite node)
        (o := Obj.pipeRead node) ht (by omega : 0 < 3) hf0 hf1 hne (.inl rfl)
        (by rw [Function.update_of_ne hne, Function.update_self])
      simp only [hpipe, Bool.true_and, hl', hr', pipeParent_eq hf0 hf1 hne,
        ihl _ _ (ht.setFd (by omega : 1 < 3) (Obj.pipeWrite node)) hl,
        ihr _ _ (ht.setFd (by omega : 0 < 3) (Obj.pipeRead node)) hr]
  | back cmd ih =>
    rw [runcmd, runSpec, ih _ _ ht hc]

end Refine

/-! ### The trees `parsecmd` builds -/

section Parsed

theorem fd_of_mem_redirOf {op : Char} {q eq : Nat} {r : Redir} (h : r ∈ redirOf op q eq) : r.fd < 2 := by
  unfold redirOf at h
  split at h <;> simp_all

theorem Redirs.fd_lt {tk : List Tok} {rs : List Redir} (hr : Redirs tk rs) : ∀ r ∈ rs, r.fd < 2 := by
  induction hr with
  | nil => simp
  | cons _ _ ih =>
    intro r hr
    rcases List.mem_append.mp hr with hr | hr
    · exact fd_of_mem_redirOf hr
    · exact ih r hr

theorem Words.fd_lt {tk : List Tok} {argv : List (Nat × Nat)} {rs : List Redir} (hw : Words tk argv rs) :
    ∀ r ∈ rs, r.fd < 2 := by
  induction hw with
  | nil => simp
  | cons hr _ ih =>
    intro r hr'
    rcases List.mem_append.mp hr' with hr' | hr'
    · exact hr.fd_lt r hr'
    · exact ih r hr'

theorem wrap_concat (c : Cmd) (rs : List Redir) (r : Redir) :
    wrap c (rs ++ [r]) = .redir (wrap c rs) r.file r.efile r.mode r.fd := by
  simp [wrap, List.foldl_append]

theorem stdRedirs_wrap {c : Cmd} {rs : List Redir} :
    (wrap c rs).StdRedirs ↔ c.StdRedirs ∧ ∀ r ∈ rs, r.fd < 2 := by
  induction rs using List.reverseRecOn with
  | nil => simp [wrap]
  | append_singleton rs r ih =>
    rw [wrap_concat, Cmd.StdRedirs, ih]
    simp only [List.mem_append, List.mem_singleton]
    constructor
    · rintro ⟨hr, hc, hrs⟩
      exact ⟨hc, fun r' h => h.elim (hrs r') fun e => e ▸ hr⟩
    · rintro ⟨hc, hrs⟩
      exact ⟨hrs r (.inr rfl), hc, fun r' h => hrs r' (.inl h)⟩

theorem stdRedirs_backs {c : Cmd} (k : Nat) : (Cmd.back^[k] c).StdRedirs ↔ c.StdRedirs := by
  induction k generalizing c with
  | zero => rfl
  | succ k ih => rw [Function.iterate_succ_apply, ih, Cmd.StdRedirs]

/-- Every redirection of a tree of the grammar is of descriptor 0 or 1. -/
theorem Derives.stdRedirs {nt : NT} {tk : List Tok} {c : Cmd} (hd : Derives nt tk c) : c.StdRedirs := by
  induction hd with
  | simple hr hw _ =>
    refine stdRedirs_wrap.mpr ⟨trivial, fun r h => ?_⟩
    rcases List.mem_append.mp h with h | h
    · exact hr.fd_lt r h
    · exact hw.fd_lt r h
  | block _ hr ih => exact stdRedirs_wrap.mpr ⟨ih, hr.fd_lt⟩
  | exec _ ih => exact ih
  | pipe _ _ ihe ihp => exact ⟨ihe, ihp⟩
  | backs k _ ih => exact (stdRedirs_backs k).mpr ih
  | list k _ _ ihp ihl => exact ⟨(stdRedirs_backs k).mpr ihp, ihl⟩

end Parsed

/-! ### What every process of the tree holds -/

section Holds

variable {node node' : List Nat} {t : Fds (Obj α)} {e : Event α} {i : Fin NOFILE} {o : Obj α}

/-- The object `o` on descriptor `i` of the act `e` was made for it by a construct at or below
`node` and above `e`: the write end of a pipe `e` is on the left of, on descriptor 1; the read
end of one it is on the right of, on descriptor 0; the file of a redirection above it, on
descriptor 0 or 1. -/
def Made (node : List Nat) (e : Event α) (i : Fin NOFILE) : Obj α → Prop
  | .given _ => False
  | .pipeWrite π => node <+: π ∧ π ++ [0] <+: e.node ∧ i.val = 1
  | .pipeRead π => node <+: π ∧ π ++ [1] <+: e.node ∧ i.val = 0
  | .file π _ _ => node <+: π ∧ π ++ [0] <+: e.node ∧ i.val < 2

theorem Made.mono (h : node <+: node') (hm : Made node' e i o) : Made node e i o := by
  cases o with
  | given a => exact hm
  | pipeWrite π => exact ⟨h.trans hm.1, hm.2⟩
  | pipeRead π => exact ⟨h.trans hm.1, hm.2⟩
  | file π f m => exact ⟨h.trans hm.1, hm.2⟩

theorem Made.lt_two (hm : Made node e i o) : i.val < 2 := by
  cases o with
  | given a => exact hm.elim
  | pipeWrite π => have := hm.2.2; omega
  | pipeRead π => have := hm.2.2; omega
  | file π f m => exact hm.2.2

/-- The act `e` of a run from `node` with the descriptors `t` is at or below `node`, and each of
its descriptors holds what `t` does or what a construct above it made for it. -/
def Holds (node : List Nat) (t : Fds (Obj α)) (e : Event α) : Prop :=
  node <+: e.node ∧ ∀ i, e.fds i = t i ∨ ∃ o, e.fds i = some o ∧ Made node e i o

theorem Holds.self (act : Act) : Holds node t ⟨node, act, t⟩ :=
  ⟨List.prefix_refl _, fun _ => .inl rfl⟩

/-- What holds of a child's run holds of its parent's. -/
theorem Holds.child {k : Nat} (h : Holds (node ++ [k]) t e) : Holds node t e :=
  ⟨(List.prefix_append _ _).trans h.1, fun i => (h.2 i).imp_right
    fun ⟨o, ho, hm⟩ => ⟨o, ho, hm.mono (List.prefix_append _ _)⟩⟩

/-- A child's run from the parent's descriptors with `fd` set to an object the parent made for
every act below the child on that descriptor. -/
theorem Holds.setFd {k fd : Nat} (h : Holds (node ++ [k]) (setFd t fd o) e)
    (hm : node ++ [k] <+: e.node → ∀ i : Fin NOFILE, i.val = fd → Made node e i o) : Holds node t e := by
  refine ⟨(List.prefix_append _ _).trans h.1, fun i => ?_⟩
  rcases h.2 i with he | ⟨o', he, hm'⟩
  · by_cases hi : i.val = fd
    · rw [setFd_self hi] at he
      exact .inr ⟨o, he, hm h.1 i hi⟩
    · rw [setFd_of_ne hi] at he
      exact .inl he
  · exact .inr ⟨o', he, hm'.mono (List.prefix_append _ _)⟩

variable {env : Env}

/-- Every act of `runSpec` holds what its position in the tree says. -/
theorem runSpec_holds {c : Cmd} (hc : c.StdRedirs) (he : e ∈ runSpec env node c t) : Holds node t e := by
  induction c generalizing node t with
  | exec argv =>
    simp only [runSpec] at he
    split_ifs at he
    · cases he
    · rw [List.mem_singleton.mp he]
      exact Holds.self _
  | redir cmd file efile mode fd ih =>
    obtain ⟨hfd, hc⟩ := hc
    simp only [runSpec] at he
    split_ifs at he
    · exact (ih hc he).setFd fun hp i hi => ⟨List.prefix_refl _, hp, by omega⟩
    · cases he
  | list left right ihl ihr =>
    obtain ⟨hl, hr⟩ := hc
    simp only [runSpec] at he
    split_ifs at he
    · rcases List.mem_append.mp he with he | he
      · exact (ihl hl he).child
      · rcases List.mem_cons.mp he with rfl | he
        · exact Holds.self _
        · exact (ihr hr he).child
    · cases he
  | pipe left right ihl ihr =>
    obtain ⟨hl, hr⟩ := hc
    -- the left side has the write end on descriptor 1
    have hleft : e ∈ runSpec env (node ++ [0]) left (setFd t 1 (.pipeWrite node)) → Holds node t e :=
      fun he => (ihl hl he).setFd fun hp i hi => ⟨List.prefix_refl _, hp, hi⟩
    simp only [runSpec] at he
    split_ifs at he
    · rcases List.mem_append.mp he with he | he
      · exact hleft he
      · rcases List.mem_append.mp he with he | he
        -- the right side: the read end on descriptor 0
        · exact (ihr hr he).setFd fun hp i hi => ⟨List.prefix_refl _, hp, hi⟩
        -- the parent, waiting
        · simp only [List.mem_cons, List.not_mem_nil, or_false, or_self] at he
          rw [he]
          exact Holds.self _
    · exact hleft (by simpa using he)
    · cases he
  | back cmd ih =>
    simp only [runSpec] at he
    split_ifs at he
    · exact (ih hc he).child
    · cases he

end Holds

/-! ### The descriptors of the commands the shell runs -/

section Runs

variable {nt : NT} {tk : List Tok} {c : Cmd}

/-- For every tree the grammar derives, every answer of the system and every shell process
with descriptors 0, 1 and 2 open and two free: every command `runcmd` runs and every shell
process that waits has 0, 1 and 2 open and two descriptors free, and holds on every descriptor
past 1 what the shell held there.  No descriptor of a pipe or of a redirected file is left
behind in a command, and the error output stays the shell's. -/
theorem runcmd_std_fds (hd : Derives nt tk c) (env : Env) (node : List Nat) {t : Fds (Obj α)}
    (ht : StdFds t) :
    ∀ e ∈ runcmd env node c t, StdFds e.fds ∧ ∀ i : Fin NOFILE, 2 ≤ i.val → e.fds i = t i := by
  intro e he
  have hc := hd.stdRedirs
  rw [runcmd_eq_runSpec env c node t ht hc] at he
  have hh := (runSpec_holds hc he).2
  -- only descriptors 0 and 1 are ever made anew
  have hrest : ∀ i : Fin NOFILE, 2 ≤ i.val → e.fds i = t i := fun i hi =>
    (hh i).resolve_right fun ⟨_, _, hm⟩ => by have := hm.lt_two; omega
  refine ⟨⟨fun i hi => ?_, ?_⟩, hrest⟩
  · rcases hh i with h | ⟨o, h, -⟩
    · rw [h]
      exact ht.std i hi
    · rw [h]
      exact Option.some_ne_none o
  · obtain ⟨i, j, hij, hi, hj⟩ := ht.spare
    refine ⟨i, j, hij, ?_, ?_⟩
    · rw [hrest i (by have := ht.three_le hi; omega), hi]
    · rw [hrest j (by have := ht.three_le hj; omega), hj]

/-- The descriptors `init` starts the shell with: `console` on 0, 1 and 2. -/
def consoleFds : Fds Unit := fun i => if i.val < 3 then some () else none

theorem stdFds_consoleFds : StdFds consoleFds where
  std := by decide
  spare := ⟨⟨3, by decide⟩, ⟨4, by decide⟩, by decide, rfl, rfl⟩

/-- Every `fork`, `pipe` and `open` succeeds. -/
def allOk : Env := ⟨fun _ => true, fun _ => true, fun _ => true⟩

theorem runcmd_std_fds_pipe :
    Derives .pipe [.word 0 1, .sym '|', .word 2 3] (.pipe (.exec [(0, 1)]) (.exec [(2, 3)])) ∧
      StdFds (fun i => (consoleFds i).map Obj.given) ∧
      ∀ e ∈ runcmd allOk [] (.pipe (.exec [(0, 1)]) (.exec [(2, 3)])) (fun i => (consoleFds i).map Obj.given),
        StdFds e.fds ∧ ∀ i : Fin NOFILE, 2 ≤ i.val → e.fds i = (consoleFds i).map Obj.given := by
  have hd : Derives .pipe [.word 0 1, .sym '|', .word 2 3] (.pipe (.exec [(0, 1)]) (.exec [(2, 3)])) :=
    .pipe (.simple .nil (@Words.cons 0 1 [] [] [] [] [] .nil .nil) (by decide))
      (.exec (.simple .nil (@Words.cons 2 3 [] [] [] [] [] .nil .nil) (by decide)))
  have hs := stdFds_consoleFds.map Obj.given
  exact ⟨hd, hs, runcmd_std_fds hd allOk [] hs⟩

/-- For every tree the grammar derives, run from the shell's own descriptors (0, 1 and 2 open
and two free) and for every answer of the system: the write end of the pipe of a `pipecmd` is
held only by the commands and waiting shells on its left, on descriptor 1, and its read end only
by those on its right, on descriptor 0.  So once the left side is done no process holds the
write end, and the right side reads end of file. -/
theorem runcmd_pipe_ends (hd : Derives nt tk c) (env : Env) {t : Fds α} (ht : StdFds t) :
    ∀ e ∈ runcmd env [] c (fun i => (t i).map Obj.given), ∀ i π,
      (e.fds i = some (.pipeWrite π) → i.val = 1 ∧ π ++ [0] <+: e.node) ∧
      (e.fds i = some (.pipeRead π) → i.val = 0 ∧ π ++ [1] <+: e.node) := by
  intro e he i π
  have hc := hd.stdRedirs
  rw [runcmd_eq_runSpec env c [] _ (ht.map _) hc] at he
  -- the shell's own descriptors hold nothing the tree made
  have hmade : ∀ o, e.fds i = some o → (∀ a, o ≠ .given a) → Made [] e i o := by
    intro o h hg
    rcases (runSpec_holds hc he).2 i with h' | ⟨o', h', hm⟩
    · rw [h] at h'
      cases ht' : t i with
      | none => simp [ht'] at h'
      | some a => simp only [ht', Option.map_some, Option.some.injEq] at h'; exact absurd h' (hg a)
    · rw [h, Option.some.injEq] at h'
      exact h' ▸ hm
  refine ⟨fun h => ?_, fun h => ?_⟩
  · obtain ⟨-, hn, hi⟩ := hmade _ h fun _ => by simp
    exact ⟨hi, hn⟩
  · obtain ⟨-, hn, hi⟩ := hmade _ h fun _ => by simp
    exact ⟨hi, hn⟩

theorem runcmd_pipe_ends_pipe :
    Derives .pipe [.word 0 1, .sym '|', .word 2 3] (.pipe (.exec [(0, 1)]) (.exec [(2, 3)])) ∧
      StdFds consoleFds ∧
      ∀ e ∈ runcmd allOk [] (.pipe (.exec [(0, 1)]) (.exec [(2, 3)])) (fun i => (consoleFds i).map Obj.given),
        ∀ i π, (e.fds i = some (.pipeWrite π) → i.val = 1 ∧ π ++ [0] <+: e.node) ∧
          (e.fds i = some (.pipeRead π) → i.val = 0 ∧ π ++ [1] <+: e.node) := by
  have hd : Derives .pipe [.word 0 1, .sym '|', .word 2 3] (.pipe (.exec [(0, 1)]) (.exec [(2, 3)])) :=
    .pipe (.simple .nil (@Words.cons 0 1 [] [] [] [] [] .nil .nil) (by decide))
      (.exec (.simple .nil (@Words.cons 2 3 [] [] [] [] [] .nil .nil) (by decide)))
  exact ⟨hd, stdFds_consoleFds, runcmd_pipe_ends hd allOk stdFds_consoleFds⟩

/-- The redirections of a simple command, the first written innermost: when every file opens,
the command runs once, with on each descriptor the file of the first redirection of it and the
shell's descriptor where there is none. -/
theorem runSpec_wrap (env : Env) (hopen : ∀ π, env.opens π = true) {argv : List (Nat × Nat)}
    (hargv : argv ≠ []) (rs : List Redir) (node : List Nat) (t : Fds (Obj α)) :
    ∃ e, runSpec env node (wrap (.exec argv) rs) t = [e] ∧ e.act = .exec argv ∧
      ∀ i : Fin NOFILE,
        (∀ r, rs.find? (fun r => r.fd == i.val) = some r → ∃ π, e.fds i = some (.file π r.file r.mode)) ∧
        (rs.find? (fun r => r.fd == i.val) = none → e.fds i = t i) := by
  induction rs using List.reverseRecOn generalizing node t with
  | nil => exact ⟨⟨node, .exec argv, t⟩, by simp [wrap, runSpec, hargv], rfl, fun i => ⟨by simp, fun _ => rfl⟩⟩
  | append_singleton rs r ih =>
    -- the outermost `redircmd` is the last redirection; it sets its descriptor first
    obtain ⟨e, he, hact, hfds⟩ := ih (node ++ [0]) (setFd t r.fd (.file node r.file r.mode))
    refine ⟨e, by rw [wrap_concat, runSpec, if_pos (hopen node), he], hact, fun i => ?_⟩
    obtain ⟨hsome, hnone⟩ := hfds i
    rw [List.find?_append]
    cases hf : rs.find? (fun r => r.fd == i.val) with
    | some r' =>
      refine ⟨fun r'' h => ?_, fun h => by simp at h⟩
      have hr : r' = r'' := by simpa using h
      exact hsome r'' (hr ▸ hf)
    | none =>
      have he' := hnone hf
      by_cases hr : r.fd = i.val
      · refine ⟨fun r'' h => ⟨node, ?_⟩, fun h => by simp [hr] at h⟩
        simp only [Option.none_or, List.find?_singleton, hr, beq_self_eq_true, if_true,
          Option.some.injEq] at h
        rw [he', setFd_self hr.symm, ← h]
      · refine ⟨fun r'' h => by simp [hr] at h, fun _ => ?_⟩
        rw [he', setFd_of_ne (Ne.symm hr)]

/-- A simple command as `parseexec` builds it: its `execcmd` under a `redircmd` for each of its
redirections, all of descriptor 0 or 1, the first written innermost.  When every file opens, the
command runs once, from any shell process with descriptors 0, 1 and 2 open and two free, with on
each descriptor the file of the first redirection of it on the line, and the shell's where there
is none: `cat < a < b` reads `a`. -/
theorem runcmd_first_redir (env : Env) (hopen : ∀ π, env.opens π = true) {argv : List (Nat × Nat)}
    (hargv : argv ≠ []) {rs : List Redir} (hrs : ∀ r ∈ rs, r.fd < 2) (node : List Nat)
    {t : Fds (Obj α)} (ht : StdFds t) :
    ∃ e, runcmd env node (wrap (.exec argv) rs) t = [e] ∧ e.act = .exec argv ∧
      ∀ i : Fin NOFILE,
        (∀ r, rs.find? (fun r => r.fd == i.val) = some r → ∃ π, e.fds i = some (.file π r.file r.mode)) ∧
        (rs.find? (fun r => r.fd == i.val) = none → e.fds i = t i) := by
  rw [runcmd_eq_runSpec env _ node t ht ((stdRedirs_wrap (c := .exec argv)).mpr ⟨trivial, hrs⟩)]
  exact runSpec_wrap env hopen hargv rs node t

theorem runcmd_first_redir_cat :
    (∀ π, allOk.opens π = true) ∧ [(0, 3)] ≠ [] ∧
      (∀ r ∈ [(⟨6, 7, O_RDONLY, 0⟩ : Redir), ⟨10, 11, O_RDONLY, 0⟩], r.fd < 2) ∧
      StdFds (fun i => (consoleFds i).map Obj.given) ∧
      ∃ e, runcmd allOk [] (wrap (.exec [(0, 3)]) [⟨6, 7, O_RDONLY, 0⟩, ⟨10, 11, O_RDONLY, 0⟩])
          (fun i => (consoleFds i).map Obj.given) = [e] ∧ e.act = .exec [(0, 3)] ∧
        ∀ i : Fin NOFILE,
          (∀ r, [(⟨6, 7, O_RDONLY, 0⟩ : Redir), ⟨10, 11, O_RDONLY, 0⟩].find? (fun r => r.fd == i.val) = some r →
            ∃ π, e.fds i = some (.file π r.file r.mode)) ∧
          ([(⟨6, 7, O_RDONLY, 0⟩ : Redir), ⟨10, 11, O_RDONLY, 0⟩].find? (fun r => r.fd == i.val) = none →
            e.fds i = (consoleFds i).map Obj.given) := by
  have hrs : ∀ r ∈ [(⟨6, 7, O_RDONLY, 0⟩ : Redir), ⟨10, 11, O_RDONLY, 0⟩], r.fd < 2 := by decide
  have hs := stdFds_consoleFds.map Obj.given
  exact ⟨fun _ => rfl, by decide, hrs, hs,
    runcmd_first_redir allOk (fun _ => rfl) (by decide) hrs [] hs⟩

end Runs

end Xv6Sched.Sh
