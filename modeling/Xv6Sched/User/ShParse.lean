import Xv6Sched.User.ShLex

/-!
# Xv6Sched.User.ShParse — `parsecmd` of `user/sh.c`

The recursive-descent parser over the positions of the line: `parseline`, `parsepipe`,
`parseexec` and `parseblock` call each other, `parseredirs`, the `&` loop of `parseline`
(`parseBacks`) and the word loop of `parseexec` (`execLoop`) do not.  A position a parser
returns is never before the one it started from (`After`), which is what makes the mutual
recursion terminate: each function calls a later one of the block at the same position, or any
of them after `gettoken` has taken a token.  `none` is `panic`.

`parseexec` fills the `argv` of one `execcmd` while wrapping it in a `redircmd` for each
redirection, so the tree it returns is the exec with its final `argv` under the redirections in
the order read (`wrap`).  `nulterminate` writes a NUL after every word of the tree.
-/

namespace Xv6Sched.Sh

/-- `MAXARGS`. -/
def MAXARGS : Nat := 10

def O_RDONLY : Nat := 0x000
def O_WRONLY : Nat := 0x001
def O_CREATE : Nat := 0x200
def O_TRUNC : Nat := 0x400

/-- `struct cmd` in its five kinds, with the pointers into the line: `argv[i]` and `eargv[i]`
of an `execcmd`, `file` and `efile` of a `redircmd`. -/
inductive Cmd where
  | exec (argv : List (Nat × Nat))
  | redir (cmd : Cmd) (file efile mode fd : Nat)
  | pipe (left right : Cmd)
  | list (left right : Cmd)
  | back (cmd : Cmd)
deriving DecidableEq, Repr

/-- A redirection as `parseredirs` reads it. -/
structure Redir where
  file : Nat
  efile : Nat
  mode : Nat
  fd : Nat
deriving DecidableEq, Repr

/-- `cmd` under a `redircmd` for each of `rs`, the first innermost. -/
def wrap (cmd : Cmd) (rs : List Redir) : Cmd :=
  rs.foldl (fun c r => .redir c r.file r.efile r.mode r.fd) cmd

/-- A position not before `i`. -/
abbrev After (i : Nat) := {j : Nat // i ≤ j}

/-- The `switch(tok)` of `parseredirs`: the `redircmd` for the token `op` (`'+'` is `>>`) and the
file `[q, eq)`; any other token leaves the command as it is. -/
def redirOf (op : Char) (q eq : Nat) : List Redir :=
  match op with
  | '<' => [⟨q, eq, O_RDONLY, 0⟩]
  | '>' => [⟨q, eq, O_WRONLY ||| O_CREATE ||| O_TRUNC, 1⟩]
  | '+' => [⟨q, eq, O_WRONLY ||| O_CREATE, 1⟩]
  | _ => []

section Parser

variable (s : List Char) (es : Nat)

/-- `parseredirs(cmd, ps, es)`: the redirections read, in order, and `*ps`. -/
def parseredirs (i : Nat) : Option (List Redir × After i) :=
  if h : (peek s es i ['<', '>']).1 then
    let t := gettoken s es (peek s es i ['<', '>']).2
    let f := gettoken s es t.2.2.2
    if f.1 ≠ 'a' then none  -- `panic("missing file for redirection")`
    else
      match parseredirs f.2.2.2 with
      | none => none
      | some (rs, j) => some (redirOf t.1 f.2.1 f.2.2.1 ++ rs, ⟨j.1, by
          have h1 : i < t.2.2.2 := (lt_of_peek h).2
          have h2 : t.2.2.2 ≤ f.2.2.2 := gettoken_mono _
          have h3 := j.2
          omega⟩)
  else some ([], ⟨(peek s es i ['<', '>']).2, (skipWs_spec i).1⟩)
termination_by es - i
decreasing_by
  have h1 := lt_of_peek h
  have h2 := @gettoken_mono s es (gettoken s es (peek s es i ['<', '>']).2).2.2.2
  omega

/-- The `&` loop of `parseline`:
`while(peek(ps, es, "&")){ gettoken(ps, es, 0, 0); cmd = backcmd(cmd); }` -/
def parseBacks (cmd : Cmd) (i : Nat) : Cmd × Nat :=
  if _h : (peek s es i ['&']).1 then
    parseBacks (.back cmd) (gettoken s es (peek s es i ['&']).2).2.2.2
  else (cmd, (peek s es i ['&']).2)
termination_by es - i
decreasing_by exact Nat.sub_lt_sub_left (lt_of_peek _h).1 (lt_of_peek _h).2

/-- The word loop of `parseexec`, with the words and redirections read so far: it stops at one
of `|)&;` or the end, panics on another symbol or on the `MAXARGS`th word, and reads the
redirections after each word. -/
def execLoop (argv : List (Nat × Nat)) (rs : List Redir) (i : Nat) :
    Option (List (Nat × Nat) × List Redir × Nat) :=
  if (peek s es i ['|', ')', '&', ';']).1 then some (argv, rs, (peek s es i ['|', ')', '&', ';']).2)
  else
    let t := gettoken s es (peek s es i ['|', ')', '&', ';']).2
    if _h : t.1 = '\x00' then some (argv, rs, t.2.2.2)
    else if t.1 ≠ 'a' then none  -- `panic("syntax")`
    else if argv.length + 1 ≥ MAXARGS then none  -- `panic("too many args")`
    else
      match parseredirs s es t.2.2.2 with
      | none => none
      | some (rs', j) => execLoop (argv ++ [(t.2.1, t.2.2.1)]) (rs ++ rs') j.1
termination_by es - i
decreasing_by
  have h1 : i ≤ (peek s es i ['|', ')', '&', ';']).2 := (skipWs_spec i).1
  have h2 : (peek s es i ['|', ')', '&', ';']).2 ≤ t.2.1 ∧ t.2.1 < es ∧ t.2.1 < t.2.2.1 ∧
      t.2.2.1 ≤ t.2.2.2 := gettoken_advance _ _h
  omega

theorem parseBacks_le (cmd : Cmd) (i : Nat) : i ≤ (parseBacks s es cmd i).2 := by
  fun_induction parseBacks s es cmd i with
  | case1 cmd i h ih =>
    have := lt_of_peek h
    omega
  | case2 cmd i h => exact (skipWs_spec i).1

/-- The word loop never moves backward. -/
theorem execLoop_le {argv : List (Nat × Nat)} {rs : List Redir} {i : Nat}
    {r : List (Nat × Nat) × List Redir × Nat} (h : execLoop s es argv rs i = some r) : i ≤ r.2.2 := by
  fun_induction execLoop s es argv rs i with
  | case1 argv rs i hp =>
    cases h
    exact (skipWs_spec i).1
  | case2 argv rs i hp t hnul =>
    cases h
    show i ≤ t.2.2.2
    have h1 : i ≤ (peek s es i ['|', ')', '&', ';']).2 := (skipWs_spec i).1
    have h2 : (peek s es i ['|', ')', '&', ';']).2 ≤ t.2.2.2 := gettoken_mono _
    omega
  | case3 => cases h
  | case4 => cases h
  | case5 => cases h
  | case6 argv rs i hp t hnul ha hmax rs' j hj ih =>
    have h1 : i ≤ (peek s es i ['|', ')', '&', ';']).2 := (skipWs_spec i).1
    have h2 : (peek s es i ['|', ')', '&', ';']).2 ≤ t.2.2.2 := gettoken_mono _
    have h3 : t.2.2.2 ≤ j.1 := j.2
    have h4 := ih h
    omega

mutual

/-- `parseline(ps, es)`. -/
def parseline (i : Nat) : Option (Cmd × After i) :=
  match parsepipe i with
  | none => none
  | some (cmd, i1) =>
    let b := parseBacks s es cmd i1.1
    if h : (peek s es b.2 [';']).1 then
      match parseline (gettoken s es (peek s es b.2 [';']).2).2.2.2 with
      | none => none
      | some (right, j) => some (.list b.1 right, ⟨j.1, by
          have h1 : i ≤ i1.1 := i1.2
          have h2 : i1.1 ≤ b.2 := parseBacks_le s es cmd i1.1
          have h3 := (lt_of_peek h).2
          have h4 := j.2
          omega⟩)
    else some (b.1, ⟨(peek s es b.2 [';']).2, by
      have h1 : i ≤ i1.1 := i1.2
      have h2 : i1.1 ≤ b.2 := parseBacks_le s es cmd i1.1
      have h3 : b.2 ≤ (peek s es b.2 [';']).2 := (skipWs_spec _).1
      omega⟩)
termination_by 4 * (es - i) + 3
decreasing_by
  · omega
  · have h2 : i1.1 ≤ (parseBacks s es cmd i1.1).2 := parseBacks_le s es cmd i1.1
    have h3 : (parseBacks s es cmd i1.1).2 <
        (gettoken s es (peek s es (parseBacks s es cmd i1.1).2 [';']).2).2.2.2 := (lt_of_peek h).2
    have h4 : (parseBacks s es cmd i1.1).2 < es := (lt_of_peek h).1
    omega

/-- `parsepipe(ps, es)`. -/
def parsepipe (i : Nat) : Option (Cmd × After i) :=
  match parseexec i with
  | none => none
  | some (cmd, i1) =>
    if h : (peek s es i1.1 ['|']).1 then
      match parsepipe (gettoken s es (peek s es i1.1 ['|']).2).2.2.2 with
      | none => none
      | some (right, j) => some (.pipe cmd right, ⟨j.1, by
          have h1 := i1.2
          have h2 := (lt_of_peek h).2
          have h3 := j.2
          omega⟩)
    else some (cmd, ⟨(peek s es i1.1 ['|']).2, by
      have h1 := i1.2
      have h2 : i1.1 ≤ (peek s es i1.1 ['|']).2 := (skipWs_spec _).1
      omega⟩)
termination_by 4 * (es - i) + 2
decreasing_by
  · omega
  · have h1 := lt_of_peek h
    omega

/-- `parseexec(ps, es)`: a block, or the words and redirections of one `execcmd`. -/
def parseexec (i : Nat) : Option (Cmd × After i) :=
  if (peek s es i ['(']).1 then
    match parseblock (peek s es i ['(']).2 with
    | none => none
    | some (cmd, j) => some (cmd, ⟨j.1, by
        have h1 : i ≤ (peek s es i ['(']).2 := (skipWs_spec i).1
        have h2 := j.2
        omega⟩)
  else
    match parseredirs s es (peek s es i ['(']).2 with
    | none => none
    | some (rs, j) =>
      match h : execLoop s es [] rs j.1 with
      | none => none
      | some (argv, rs', k) => some (wrap (.exec argv) rs', ⟨k, by
          have h1 : i ≤ (peek s es i ['(']).2 := (skipWs_spec i).1
          have h2 := j.2
          have h3 : j.1 ≤ k := execLoop_le s es h
          omega⟩)
termination_by 4 * (es - i) + 1
decreasing_by
  have : i ≤ (peek s es i ['(']).2 := (skipWs_spec i).1
  omega

/-- `parseblock(ps, es)`. -/
def parseblock (i : Nat) : Option (Cmd × After i) :=
  if h : (peek s es i ['(']).1 then
    match parseline (gettoken s es (peek s es i ['(']).2).2.2.2 with
    | none => none
    | some (cmd, j) =>
      if (peek s es j.1 [')']).1 then
        match parseredirs s es (gettoken s es (peek s es j.1 [')']).2).2.2.2 with
        | none => none
        | some (rs, k) => some (wrap cmd rs, ⟨k.1, by
            have h1 := (lt_of_peek h).2
            have h2 := j.2
            have h3 := @gettoken_mono s es (peek s es j.1 [')']).2
            have h4 : j.1 ≤ (peek s es j.1 [')']).2 := (skipWs_spec _).1
            have h5 := k.2
            omega⟩)
      else none  -- `panic("syntax - missing )")`
  else none  -- `panic("parseblock")`
termination_by 4 * (es - i)
decreasing_by
  have := lt_of_peek h
  omega

end

end Parser

/-- `nulterminate(cmd)` on the line `buf`: a NUL at `eargv[i]` of every word of an `execcmd` and
at `efile` of every `redircmd`. -/
def nulterminate : Cmd → List Char → List Char
  | .exec argv, buf => argv.foldl (fun b w => b.set w.2 '\x00') buf
  | .redir cmd _ efile _ _, buf => (nulterminate cmd buf).set efile '\x00'
  | .pipe left right, buf => nulterminate right (nulterminate left buf)
  | .list left right, buf => nulterminate right (nulterminate left buf)
  | .back cmd, buf => nulterminate cmd buf

/-- `parsecmd(s)`: the tree and the line after `nulterminate`; `none` is a `panic`. -/
def parsecmd (s : List Char) : Option (Cmd × List Char) :=
  let es := strlen s
  match parseline s es 0 with
  | none => none
  | some (cmd, j) =>
    -- `peek(&s, es, "")` only skips whitespace; anything left is a syntax error
    if (peek s es j.1 []).2 ≠ es then none
    else some (cmd, nulterminate cmd s)

/-- The strings of a tree as `[start, end)` pointers into the line: every `argv[i]`, `eargv[i]`
and every `file`, `efile`. -/
def Cmd.words : Cmd → List (Nat × Nat)
  | .exec argv => argv
  | .redir cmd file efile _ _ => cmd.words ++ [(file, efile)]
  | .pipe left right => left.words ++ right.words
  | .list left right => left.words ++ right.words
  | .back cmd => cmd.words

/-- The C string at `p`: the characters up to the first NUL. -/
def cstr (buf : List Char) (p : Nat) : List Char := (buf.drop p).takeWhile (· ≠ '\x00')

/-! ### `nulterminate` -/

theorem getElem?_set_nul (buf : List Char) (p k : Nat) :
    (buf.set p '\x00')[k]? = if k = p then buf[k]?.map (fun _ => '\x00') else buf[k]? := by
  rw [List.getElem?_set]
  by_cases hk : k = p
  · subst hk
    by_cases hlt : k < buf.length
    · simp [hlt]
    · simp [hlt]
  · simp [hk, Ne.symm hk]

@[simp] theorem nul_comp_nul : ((fun _ : Char => '\x00') ∘ fun _ : Char => '\x00') = fun _ => '\x00' :=
  rfl

theorem getElem?_foldl_set (ws : List (Nat × Nat)) (buf : List Char) (k : Nat) :
    (ws.foldl (fun b w => b.set w.2 '\x00') buf)[k]? =
      if k ∈ ws.map Prod.snd then buf[k]?.map (fun _ => '\x00') else buf[k]? := by
  induction ws generalizing buf with
  | nil => simp
  | cons w ws ih =>
    rw [List.foldl_cons, ih, getElem?_set_nul]
    split_ifs <;> simp_all

/-- `nulterminate` writes a NUL at the end of every string of the tree and nowhere else. -/
theorem getElem?_nulterminate (c : Cmd) (buf : List Char) (k : Nat) :
    (nulterminate c buf)[k]? =
      if k ∈ c.words.map Prod.snd then buf[k]?.map (fun _ => '\x00') else buf[k]? := by
  induction c generalizing buf with
  | exec argv => exact getElem?_foldl_set argv buf k
  | redir cmd file efile mode fd ih =>
    rw [nulterminate, getElem?_set_nul, ih]
    split_ifs <;> simp_all [Cmd.words]
  | pipe left right ihl ihr =>
    rw [nulterminate, ihr, ihl]
    split_ifs <;> simp_all [Cmd.words]
  | list left right ihl ihr =>
    rw [nulterminate, ihr, ihl]
    split_ifs <;> simp_all [Cmd.words]
  | back cmd ih => rw [nulterminate, ih, Cmd.words]

/-! ### C strings -/

theorem drop_of_getElem? {l : List Char} {q : Nat} {c : Char} (h : l[q]? = some c) :
    l.drop q = c :: l.drop (q + 1) := by
  obtain ⟨hq, rfl⟩ := List.getElem?_eq_some_iff.mp h
  exact List.drop_eq_getElem_cons hq

/-- The C string at `q` of `buf` is the `n` characters of `s` at `q`, when `buf` has them there
and none of them is NUL, and ends with a NUL or its last byte after them. -/
theorem cstr_eq_take {buf s : List Char} : ∀ (n q : Nat),
    (∀ k < n, ∃ c, buf[q + k]? = some c ∧ s[q + k]? = some c ∧ c ≠ '\x00') →
    (buf[q + n]? = none ∨ buf[q + n]? = some '\x00') →
    cstr buf q = (s.drop q).take n
  | 0, q, _, hend => by
    rw [Nat.add_zero] at hend
    rcases hend with hend | hend
    · rw [cstr, List.drop_eq_nil_iff.mpr (List.getElem?_eq_none_iff.mp hend)]
      simp
    · rw [cstr, drop_of_getElem? hend]
      simp
  | n + 1, q, hin, hend => by
    obtain ⟨c, hb, hs, hc⟩ := hin 0 (Nat.succ_pos n)
    rw [Nat.add_zero] at hb hs
    -- the first character is copied; the rest is the string at `q + 1`
    have ih := cstr_eq_take n (q + 1) (fun k hk => by
      rw [Nat.add_right_comm, Nat.add_assoc]
      exact hin (k + 1) (by omega)) (by rw [Nat.add_right_comm, Nat.add_assoc]; exact hend)
    rw [cstr, drop_of_getElem? hb, drop_of_getElem? hs, List.takeWhile_cons, List.take_succ_cons,
      ← ih, cstr]
    simp [hc]

end Xv6Sched.Sh
