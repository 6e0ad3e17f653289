import Xv6Sched.User.ShParse
import Mathlib.Logic.Function.Iterate

/-!
# Xv6Sched.User.ShGrammar — the grammar `parsecmd` decides

The command-line grammar of `user/sh.c`, over the tokens `gettoken` reads (`toks`), with the
tree of each derivation:

    line  ::= pipe ('&')* (';' line)?
    pipe  ::= exec ('|' pipe)?
    exec  ::= '(' line ')' redir* | redir* (word redir*)*      -- at most MAXARGS-1 words
    redir ::= ('<' | '>' | '>>') word

The parser reads its input only through `peek` and `gettoken`, and both are functions of the
tokens left (`peek_fst`, `toks_of_ne`), so each parsing function is related to the grammar over
`toks`: what it returns is derived (soundness), and what is derived, followed by a token the
grammar allows there (`Follow`), it returns (completeness).  `parsecmd_derives` puts the two
together with the leftover check, and with `nulterminate`: every string of the tree is its word.
-/

namespace Xv6Sched.Sh

/-- The nonterminals that build a tree. -/
inductive NT where
  | line
  | pipe
  | exec
deriving DecidableEq, Repr

/-- `redir*`, with the `redircmd` of each redirection in order (`'+'` is `>>`). -/
inductive Redirs : List Tok → List Redir → Prop
  | nil : Redirs [] []
  | cons {op : Char} {q eq : Nat} {t : List Tok} {rs : List Redir} (hop : op ∈ ['<', '>', '+'])
      (h : Redirs t rs) : Redirs (.sym op :: .word q eq :: t) (redirOf op q eq ++ rs)

/-- `(word redir*)*`: the words, and the redirections after them in order. -/
inductive Words : List Tok → List (Nat × Nat) → List Redir → Prop
  | nil : Words [] [] []
  | cons {q eq : Nat} {t t' : List Tok} {rs rs' : List Redir} {argv : List (Nat × Nat)}
      (hr : Redirs t rs) (hw : Words t' argv rs') :
      Words (.word q eq :: t ++ t') ((q, eq) :: argv) (rs ++ rs')

/-- The grammar of a command line, with the tree of each derivation. -/
inductive Derives : NT → List Tok → Cmd → Prop
  /-- `exec ::= redir* (word redir*)*` with at most `MAXARGS - 1` words -/
  | simple {t t' : List Tok} {rs rs' : List Redir} {argv : List (Nat × Nat)} (hr : Redirs t rs)
      (hw : Words t' argv rs') (hlen : argv.length ≤ MAXARGS - 1) :
      Derives .exec (t ++ t') (wrap (.exec argv) (rs ++ rs'))
  /-- `exec ::= '(' line ')' redir*` -/
  | block {t t' : List Tok} {c : Cmd} {rs : List Redir} (hl : Derives .line t c)
      (hr : Redirs t' rs) : Derives .exec (.sym '(' :: t ++ .sym ')' :: t') (wrap c rs)
  /-- `pipe ::= exec` -/
  | exec {t : List Tok} {c : Cmd} (he : Derives .exec t c) : Derives .pipe t c
  /-- `pipe ::= exec '|' pipe` -/
  | pipe {t t' : List Tok} {c c' : Cmd} (he : Derives .exec t c) (hp : Derives .pipe t' c') :
      Derives .pipe (t ++ .sym '|' :: t') (.pipe c c')
  /-- `line ::= pipe '&'*` -/
  | backs {t : List Tok} {c : Cmd} (k : Nat) (hp : Derives .pipe t c) :
      Derives .line (t ++ List.replicate k (.sym '&')) (Cmd.back^[k] c)
  /-- `line ::= pipe '&'* ';' line` -/
  | list {t t' : List Tok} {c c' : Cmd} (k : Nat) (hp : Derives .pipe t c)
      (hl : Derives .line t' c') :
      Derives .line (t ++ List.replicate k (.sym '&') ++ .sym ';' :: t') (.list (Cmd.back^[k] c) c')

/-- The symbols that may follow each nonterminal in a line. -/
def followSyms : NT → List Char
  | .line => [')']
  | .pipe => [')', '&', ';']
  | .exec => [')', '&', ';', '|']

/-- The tokens after a nonterminal start with one of its `followSyms`, or are used up. -/
def Follow (nt : NT) (rest : List Tok) : Prop :=
  ∀ x ∈ rest.head?, x ∈ (followSyms nt).map Tok.sym

/-- A symbol that may follow a nonterminal is not one `peek` looks for in `cs`. -/
theorem Follow.peekIn {nt : NT} {rest : List Tok} (hf : Follow nt rest) {cs : List Char}
    (hcs : ∀ c ∈ followSyms nt, c ∉ cs) : ∀ x ∈ rest.head?, x.peekIn cs = false := by
  intro x hx
  obtain ⟨c, hc, rfl⟩ := List.mem_map.mp (hf x hx)
  have hne : c ≠ '+' := by
    cases nt <;> simp only [followSyms, List.mem_cons, List.not_mem_nil, or_false] at hc <;>
      rcases hc with rfl | rfl | rfl | rfl <;> decide
  simp [Tok.peekIn, hne, hcs c hc]

/-- What follows a nonterminal is not a redirection. -/
theorem Follow.not_redir {nt : NT} {rest : List Tok} (hf : Follow nt rest) :
    ∀ x ∈ rest.head?, x.peekIn ['<', '>'] = false :=
  hf.peekIn (by cases nt <;> simp [followSyms])

theorem Follow.exec_of_pipe {rest : List Tok} (hf : Follow .pipe rest) : Follow .exec rest :=
  fun x hx => List.map_subset _ (by decide) (hf x hx)

theorem Follow.pipe_of_line {rest : List Tok} (hf : Follow .line rest) : Follow .pipe rest :=
  fun x hx => List.map_subset _ (by decide) (hf x hx)

/-- `redir*` starts with a redirection symbol, if with anything. -/
theorem Redirs.head {t : List Tok} {rs : List Redir} (hr : Redirs t rs) :
    ∀ x ∈ t.head?, ∃ op ∈ ['<', '>', '+'], x = .sym op := by
  cases hr with
  | nil => simp
  | @cons op _ _ _ _ hop _ =>
    intro x hx
    simp only [List.head?_cons, Option.mem_def, Option.some.injEq] at hx
    exact ⟨op, hop, hx.symm⟩

/-- `(word redir*)*` starts with a word, if with anything. -/
theorem Words.head {t : List Tok} {argv : List (Nat × Nat)} {rs : List Redir}
    (hw : Words t argv rs) : ∀ x ∈ t.head?, ∃ q eq, x = .word q eq := by
  cases hw with
  | nil => simp
  | @cons q eq _ _ _ _ _ _ _ =>
    intro x hx
    simp only [List.cons_append, List.head?_cons, Option.mem_def, Option.some.injEq] at hx
    exact ⟨q, eq, hx.symm⟩

/-- What holds of the heads of two lists holds of the head of their concatenation. -/
theorem head_append {P : Tok → Prop} {t r : List Tok} (ht : ∀ x ∈ t.head?, P x)
    (hr : ∀ x ∈ r.head?, P x) : ∀ x ∈ (t ++ r).head?, P x := by
  cases t with
  | nil => simpa using hr
  | cons y t =>
    intro x hx
    simp only [List.cons_append, List.head?_cons, Option.mem_def, Option.some.injEq] at hx
    exact ht x (by rw [← hx]; rfl)

/-- A word is not a symbol `peek` looks for. -/
theorem Words.peekIn {t : List Tok} {argv : List (Nat × Nat)} {rs : List Redir}
    (hw : Words t argv rs) (cs : List Char) : ∀ x ∈ t.head?, x.peekIn cs = false := by
  intro x hx
  obtain ⟨q, eq, rfl⟩ := hw.head x hx
  rfl

/-- The words of a simple command, and what follows the command, are not redirections: where
`parseredirs` stops. -/
theorem Words.not_redir_append {t rest : List Tok} {argv : List (Nat × Nat)} {rs : List Redir}
    (hw : Words t argv rs) (hf : Follow .exec rest) :
    ∀ x ∈ (t ++ rest).head?, x.peekIn ['<', '>'] = false :=
  head_append (hw.peekIn _) hf.not_redir

theorem Follow.cons {nt : NT} {c : Char} (hc : c ∈ followSyms nt) (r : List Tok) :
    Follow nt (.sym c :: r) := by
  intro x hx
  simp only [List.head?_cons, Option.mem_def, Option.some.injEq] at hx
  rw [← hx]
  exact List.mem_map_of_mem hc

/-! ### `peek` and `gettoken` over the tokens -/

section Bridge

variable {s : List Char} {es : Nat}

theorem toks_peek (cs : List Char) (i : Nat) : toks s es (peek s es i cs).2 = toks s es i :=
  toks_skipWs i

theorem peek_le (cs : List Char) (i : Nat) : i ≤ (peek s es i cs).2 := (skipWs_spec i).1

theorem peek_snd_le (cs : List Char) {i : Nat} (hi : i ≤ es) : (peek s es i cs).2 ≤ es :=
  (skipWs_spec i).2.2 hi

theorem ofRet_eq_word {c : Char} {q eq q' eq' : Nat} (h : Tok.ofRet c q eq = .word q' eq') :
    c = 'a' ∧ q = q' ∧ eq = eq' := by
  unfold Tok.ofRet at h
  split at h
  · cases h
    exact ⟨by assumption, rfl, rfl⟩
  · cases h

theorem ofRet_eq_sym {c c' : Char} {q eq : Nat} (h : Tok.ofRet c q eq = .sym c') : c = c' := by
  unfold Tok.ofRet at h
  split at h
  · cases h
  · cases h
    rfl

/-- `gettoken` takes the head of the tokens. -/
theorem gettoken_of_toks {i : Nat} {x : Tok} {r : List Tok} (h : toks s es i = x :: r) :
    Tok.ofRet (gettoken s es i).1 (gettoken s es i).2.1 (gettoken s es i).2.2.1 = x ∧
      toks s es (gettoken s es i).2.2.2 = r := by
  by_cases h0 : (gettoken s es i).1 = '\x00'
  · rw [toks_of_eq h0] at h
    cases h
  · rw [toks_of_ne h0, List.cons.injEq] at h
    exact h

/-- A word at the head: `gettoken` returns `'a'` with its `q` and `eq`. -/
theorem gettoken_of_toks_word {i q eq : Nat} {r : List Tok} (h : toks s es i = .word q eq :: r) :
    (gettoken s es i).1 = 'a' ∧ (gettoken s es i).2.1 = q ∧ (gettoken s es i).2.2.1 = eq ∧
      toks s es (gettoken s es i).2.2.2 = r := by
  obtain ⟨hx, hr⟩ := gettoken_of_toks h
  obtain ⟨ha, hq, heq⟩ := ofRet_eq_word hx
  exact ⟨ha, hq, heq, hr⟩

/-- A symbol at the head: `gettoken` returns it. -/
theorem gettoken_of_toks_sym {i : Nat} {c : Char} {r : List Tok} (h : toks s es i = .sym c :: r) :
    (gettoken s es i).1 = c ∧ toks s es (gettoken s es i).2.2.2 = r := by
  obtain ⟨hx, hr⟩ := gettoken_of_toks h
  exact ⟨ofRet_eq_sym hx, hr⟩

/-- `gettoken` at the end of the line stays there. -/
theorem toks_gettoken_of_nul {i : Nat} (h : (gettoken s es i).1 = '\x00') :
    toks s es (gettoken s es i).2.2.2 = [] := by
  have hc : charAt s es (skipWs s es i) = '\x00' := by
    rw [gettoken_fst, tokenAt_fst_eq_nul_iff] at h
    exact h
  have hp : (gettoken s es i).2.2.2 = skipWs s es i := by
    simp only [gettoken, tokenAt, hc, skipWs_skipWs]
  rw [hp, toks_skipWs]
  exact toks_of_eq h

/-- What `peek` for symbols sees, read off the tokens. -/
theorem peek_of_toks {cs : List Char} (hcs : cs ⊆ symbols) {i : Nat} {x : Tok}
    {r : List Tok} (h : toks s es i = x :: r) : (peek s es i cs).1 = x.peekIn cs := by
  rw [peek_fst hcs, h]
  rfl

theorem peek_of_toks_nil {cs : List Char} (hcs : cs ⊆ symbols) {i : Nat}
    (h : toks s es i = []) : (peek s es i cs).1 = false := by
  rw [peek_fst hcs, h]
  rfl

/-- `peek` for symbols does not see what is not at the head of the tokens. -/
theorem peek_of_head {cs : List Char} (hcs : cs ⊆ symbols) {i : Nat}
    (h : ∀ x ∈ (toks s es i).head?, x.peekIn cs = false) : (peek s es i cs).1 = false := by
  rcases ht : toks s es i with _ | ⟨x, r⟩
  · exact peek_of_toks_nil hcs ht
  · rw [peek_of_toks hcs ht]
    exact h x (by rw [ht]; rfl)

/-- `peek` saw one of `cs`: the next token is a symbol of `cs` (`>>` for `>`), and the `gettoken`
after the `peek` returns it and leaves the tokens after it. -/
theorem toks_of_peek {cs : List Char} (hcs : cs ⊆ symbols) {i : Nat}
    (h : (peek s es i cs).1 = true) :
    (if (gettoken s es (peek s es i cs).2).1 = '+' then '>' else
        (gettoken s es (peek s es i cs).2).1) ∈ cs ∧
      toks s es i = .sym (gettoken s es (peek s es i cs).2).1 ::
        toks s es (gettoken s es (peek s es i cs).2).2.2.2 := by
  have ht := toks_of_ne (gettoken_ne_of_peek h)
  rw [toks_peek] at ht
  -- the token `peek` saw is a symbol, so `gettoken` did not return `'a'`
  by_cases ha : (gettoken s es (peek s es i cs).2).1 = 'a'
  · rw [Tok.ofRet, if_pos ha] at ht
    rw [peek_of_toks hcs ht] at h
    simp [Tok.peekIn] at h
  · rw [Tok.ofRet, if_neg ha] at ht
    rw [peek_of_toks hcs ht] at h
    exact ⟨by simpa [Tok.peekIn] using h, ht⟩

theorem eq_of_peek_one {c d : Char} (hd : d ≠ '>') (h : (if c = '+' then '>' else c) ∈ [d]) :
    c = d := by
  by_cases hc : c = '+'
  · rw [if_pos hc, List.mem_singleton] at h
    exact absurd h.symm hd
  · rw [if_neg hc, List.mem_singleton] at h
    exact h

/-- `peek` for one symbol other than `>` saw exactly that symbol, which `gettoken` then takes. -/
theorem toks_of_peek_one {d : Char} (hd : d ∈ symbols) (hd' : d ≠ '>') {i : Nat}
    (h : (peek s es i [d]).1 = true) :
    toks s es i = .sym d :: toks s es (gettoken s es (peek s es i [d]).2).2.2.2 := by
  have hcs : [d] ⊆ symbols := by
    intro x hx
    rw [List.mem_singleton.mp hx]
    exact hd
  obtain ⟨hsym, ht⟩ := toks_of_peek hcs h
  rw [eq_of_peek_one hd' hsym] at ht
  exact ht

/-- `peek` did not see one of `cs`: neither is the head of the tokens. -/
theorem head_of_peek {cs : List Char} (hcs : cs ⊆ symbols) {i : Nat}
    (h : (peek s es i cs).1 = false) : ∀ x ∈ (toks s es i).head?, x.peekIn cs = false := by
  intro x hx
  obtain ⟨r, hr⟩ := List.head?_eq_some_iff.mp hx
  rw [peek_of_toks hcs hr] at h
  exact h

end Bridge

/-! ### Redirections -/

section Redirs

variable {s : List Char} {es : Nat}

theorem redir_syms : ['<', '>'] ⊆ symbols := by decide

/-- The tokens `peek(ps, es, "<>")` sees are the three redirection symbols. -/
theorem redir_op {c : Char} (h : (if c = '+' then '>' else c) ∈ ['<', '>']) :
    c ∈ ['<', '>', '+'] := by
  by_cases hc : c = '+'
  · simp [hc]
  · rw [if_neg hc] at h
    simp only [List.mem_cons, List.not_mem_nil, or_false] at h ⊢
    rcases h with h | h <;> simp [h]

/-- A word at the head: `gettoken` at `i` returned `'a'`. -/
theorem toks_of_a {i : Nat} (h : (gettoken s es i).1 = 'a') :
    toks s es i = .word (gettoken s es i).2.1 (gettoken s es i).2.2.1 ::
      toks s es (gettoken s es i).2.2.2 := by
  rw [toks_of_ne (by rw [h]; decide), Tok.ofRet, if_pos h]

/-- `parseredirs` reads `redir*`. -/
theorem parseredirs_sound {i : Nat} (hi : i ≤ es) {rs : List Redir} {j : After i}
    (h : parseredirs s es i = some (rs, j)) :
    j.1 ≤ es ∧ ∃ t, toks s es i = t ++ toks s es j.1 ∧ Redirs t rs := by
  fun_induction parseredirs s es i generalizing rs with
  | case1 => cases h
  | case2 => cases h
  | case3 i hp t f ha rs' j' hrec =>
    rename_i ih
    simp only [Option.some.injEq, Prod.mk.injEq] at h
    obtain ⟨rfl, rfl⟩ := h
    -- the next two tokens are the redirection symbol and its file
    have hop : (if t.1 = '+' then '>' else t.1) ∈ ['<', '>'] := (toks_of_peek redir_syms hp).1
    have ht : toks s es i = .sym t.1 :: toks s es t.2.2.2 := (toks_of_peek redir_syms hp).2
    have hf : toks s es t.2.2.2 = .word f.2.1 f.2.2.1 :: toks s es f.2.2.2 :=
      toks_of_a (not_not.mp ha)
    have hle : f.2.2.2 ≤ es := gettoken_le (gettoken_le (peek_snd_le _ hi))
    obtain ⟨hj, t', hj', hr⟩ := ih hle hrec
    refine ⟨hj, .sym t.1 :: .word f.2.1 f.2.2.1 :: t', ?_, .cons (redir_op hop) hr⟩
    rw [ht, hf, hj']
    rfl
  | case4 i hp =>
    simp only [Option.some.injEq, Prod.mk.injEq] at h
    obtain ⟨rfl, rfl⟩ := h
    exact ⟨peek_snd_le ['<', '>'] hi, [], (toks_peek ['<', '>'] i).symm, .nil⟩

/-- Before a token that is not a redirection, `parseredirs` reads exactly the redirections of a
`redir*`. -/
theorem parseredirs_complete {t : List Tok} {rs : List Redir} (hd : Redirs t rs) {i : Nat}
    {rest : List Tok} (ht : toks s es i = t ++ rest)
    (hf : ∀ x ∈ rest.head?, x.peekIn ['<', '>'] = false) :
    ∃ j : After i, parseredirs s es i = some (rs, j) ∧ toks s es j.1 = rest := by
  induction hd generalizing i with
  | nil =>
    have hp : (peek s es i ['<', '>']).1 = false := by
      rw [List.nil_append] at ht
      exact peek_of_head redir_syms (by rw [ht]; exact hf)
    rw [parseredirs, dif_neg (by rw [hp]; decide)]
    exact ⟨_, rfl, by rw [toks_peek, ht]; rfl⟩
  | @cons op q eq t rs hop hd ih =>
    have hp : (peek s es i ['<', '>']).1 = true := by
      rw [peek_of_toks redir_syms ht]
      simp only [List.mem_cons, List.not_mem_nil, or_false] at hop
      rcases hop with rfl | rfl | rfl <;> decide
    -- `gettoken` takes the symbol, then the file
    obtain ⟨hg, hgt⟩ := gettoken_of_toks_sym (by rw [toks_peek ['<', '>']]; exact ht)
    obtain ⟨hfa, hfq, hfe, hft⟩ := gettoken_of_toks_word hgt
    obtain ⟨j', hrec, hj'⟩ := ih hft
    have hle : i ≤ j'.1 := by
      have h1 := @peek_le s es ['<', '>'] i
      have h2 := @gettoken_mono s es (peek s es i ['<', '>']).2
      have h3 := @gettoken_mono s es (gettoken s es (peek s es i ['<', '>']).2).2.2.2
      have h4 := j'.2
      omega
    refine ⟨⟨j'.1, hle⟩, ?_, hj'⟩
    rw [parseredirs, dif_pos hp]
    dsimp only
    rw [if_neg (by rw [hfa]; exact not_not.mpr rfl), hrec]
    dsimp only
    rw [hg, hfq, hfe]

end Redirs

/-! ### The `&` loop and the word loop -/

section Loops

variable {s : List Char} {es : Nat}

theorem parseBacks_snd_le (cmd : Cmd) {i : Nat} (hi : i ≤ es) : (parseBacks s es cmd i).2 ≤ es := by
  fun_induction parseBacks s es cmd i with
  | case1 cmd i hp ih => exact ih (gettoken_le (peek_snd_le ['&'] hi))
  | case2 cmd i hp => exact peek_snd_le ['&'] hi

/-- The `&` loop takes the `&` tokens at the head and puts a `backcmd` over the command for
each. -/
theorem parseBacks_spec (cmd : Cmd) (i : Nat) :
    ∃ k, toks s es i = List.replicate k (.sym '&') ++ toks s es (parseBacks s es cmd i).2 ∧
      (parseBacks s es cmd i).1 = Cmd.back^[k] cmd ∧
      ∀ x ∈ (toks s es (parseBacks s es cmd i).2).head?, x ≠ .sym '&' := by
  fun_induction parseBacks s es cmd i with
  | case1 cmd i hp ih =>
    obtain ⟨k, htk, hc, hhd⟩ := ih
    have ht := toks_of_peek_one (by decide) (by decide) hp
    rw [htk] at ht
    exact ⟨k + 1, ht, hc, hhd⟩
  | case2 cmd i hp =>
    refine ⟨0, (toks_peek ['&'] i).symm, rfl, fun x hx hx' => ?_⟩
    rw [toks_peek] at hx
    have := head_of_peek (by decide) (Bool.eq_false_iff.mpr hp) x hx
    rw [hx'] at this
    exact absurd this (by decide)

/-- A run of `a` before a list that does not start with `a` is determined. -/
theorem replicate_append_inj {a : Tok} : ∀ {k k' : Nat} {l l' : List Tok},
    List.replicate k a ++ l = List.replicate k' a ++ l' → (∀ x ∈ l.head?, x ≠ a) →
      (∀ x ∈ l'.head?, x ≠ a) → k = k' ∧ l = l'
  | 0, 0, _, _, h, _, _ => ⟨rfl, h⟩
  | k + 1, 0, _, l', h, _, h' => by
    rw [List.replicate_succ, List.replicate_zero, List.nil_append] at h
    exact absurd rfl (h' a (by rw [← h]; rfl))
  | 0, k' + 1, l, _, h, hl, _ => by
    rw [List.replicate_succ, List.replicate_zero, List.nil_append] at h
    exact absurd rfl (hl a (by rw [h]; rfl))
  | k + 1, k' + 1, _, _, h, hl, hl' => by
    rw [List.replicate_succ, List.replicate_succ, List.cons_append, List.cons_append,
      List.cons.injEq] at h
    obtain ⟨hk, hll⟩ := replicate_append_inj h.2 hl hl'
    exact ⟨by rw [hk], hll⟩

theorem exec_syms : ['|', ')', '&', ';'] ⊆ symbols := by decide

/-- The word loop reads `(word redir*)*`, at most `MAXARGS - 1` words in all. -/
theorem execLoop_sound {argv0 : List (Nat × Nat)} {rs0 : List Redir} {i : Nat} (hi : i ≤ es)
    (hlen : argv0.length ≤ MAXARGS - 1) {argv : List (Nat × Nat)} {rs : List Redir} {j : Nat}
    (h : execLoop s es argv0 rs0 i = some (argv, rs, j)) :
    j ≤ es ∧ argv.length ≤ MAXARGS - 1 ∧ ∃ t argv' rs', toks s es i = t ++ toks s es j ∧
      Words t argv' rs' ∧ argv = argv0 ++ argv' ∧ rs = rs0 ++ rs' := by
  fun_induction execLoop s es argv0 rs0 i with
  | case1 argv0 rs0 i hp =>
    simp only [Option.some.injEq, Prod.mk.injEq] at h
    obtain ⟨rfl, rfl, rfl⟩ := h
    exact ⟨peek_snd_le _ hi, hlen, [], [], [], (toks_peek _ i).symm, .nil, by simp, by simp⟩
  | case2 argv0 rs0 i hp t hnul =>
    -- `gettoken` returned 0: the line is used up
    simp only [Option.some.injEq, Prod.mk.injEq] at h
    obtain ⟨rfl, rfl, rfl⟩ := h
    have h0 : toks s es i = [] := by
      rw [← toks_peek ['|', ')', '&', ';'] i]
      exact toks_of_eq hnul
    refine ⟨gettoken_le (peek_snd_le _ hi), hlen, [], [], [], ?_, .nil, by simp, by simp⟩
    rw [h0, toks_gettoken_of_nul hnul]
    rfl
  | case3 => cases h
  | case4 => cases h
  | case5 => cases h
  | case6 argv0 rs0 i hp t hnul ha hmax rs' j' hrec =>
    rename_i ih
    -- a word, then the redirections after it, then the rest of the loop
    have ht : toks s es i = .word t.2.1 t.2.2.1 :: toks s es t.2.2.2 := by
      rw [← toks_peek ['|', ')', '&', ';'] i]
      exact toks_of_a (not_not.mp ha)
    have hle : t.2.2.2 ≤ es := gettoken_le (peek_snd_le _ hi)
    obtain ⟨hj', tr, htr, hr⟩ := parseredirs_sound hle hrec
    have hlen' : (argv0 ++ [(t.2.1, t.2.2.1)]).length ≤ MAXARGS - 1 := by
      rw [List.length_append, List.length_singleton]
      omega
    obtain ⟨hj, hl, t', argv', rs'', ht', hw, rfl, rfl⟩ := ih hj' hlen' h
    refine ⟨hj, hl, .word t.2.1 t.2.2.1 :: tr ++ t', (t.2.1, t.2.2.1) :: argv', rs' ++ rs'', ?_,
      .cons hr hw, by simp, by simp⟩
    rw [ht, htr, ht']
    simp

/-- Before what may follow an `exec`, the word loop reads exactly the words and redirections of
a `(word redir*)*`. -/
theorem execLoop_complete {t : List Tok} {argv : List (Nat × Nat)} {rs : List Redir}
    (hw : Words t argv rs) {argv0 : List (Nat × Nat)} {rs0 : List Redir} {i : Nat}
    {rest : List Tok} (ht : toks s es i = t ++ rest) (hf : Follow .exec rest)
    (hlen : argv0.length + argv.length ≤ MAXARGS - 1) :
    ∃ j, execLoop s es argv0 rs0 i = some (argv0 ++ argv, rs0 ++ rs, j) ∧ toks s es j = rest := by
  induction hw generalizing argv0 rs0 i with
  | nil =>
    rw [List.nil_append] at ht
    rcases hr : rest with _ | ⟨x, r⟩
    · -- the end of the line: `gettoken` returns 0
      have hp := peek_of_toks_nil exec_syms (by rw [ht, hr])
      have hnul : (gettoken s es (peek s es i ['|', ')', '&', ';']).2).1 = '\x00' := by
        by_contra hne
        have h := toks_of_ne hne
        rw [toks_peek, ht, hr] at h
        cases h
      rw [execLoop, if_neg (by rw [hp]; decide)]
      dsimp only
      rw [dif_pos hnul]
      exact ⟨_, by simp, toks_gettoken_of_nul hnul⟩
    · -- a symbol that ends the command: `peek` sees it
      have hx := hf x (by simp [hr])
      have hp : (peek s es i ['|', ')', '&', ';']).1 = true := by
        rw [peek_of_toks exec_syms (by rw [ht, hr])]
        simp only [followSyms, List.map_cons, List.map_nil, List.mem_cons, List.not_mem_nil,
          or_false] at hx
        rcases hx with rfl | rfl | rfl | rfl <;> rfl
      rw [execLoop, if_pos hp]
      refine ⟨(peek s es i ['|', ')', '&', ';']).2, by simp, ?_⟩
      rw [toks_peek, ht, hr]
  | @cons q eq t t' rs rs' argv hr hw ih =>
    simp only [List.cons_append, List.append_assoc] at ht
    have hp : (peek s es i ['|', ')', '&', ';']).1 = false := by
      rw [peek_of_toks exec_syms ht]
      rfl
    obtain ⟨ha, hq, heq, hgt⟩ :=
      gettoken_of_toks_word (by rw [toks_peek ['|', ')', '&', ';']]; exact ht)
    -- the redirections after the word stop at the next word or at what follows the `exec`
    obtain ⟨j, hrec, hj⟩ := parseredirs_complete hr hgt (hw.not_redir_append hf)
    have hlen' : (argv0 ++ [(q, eq)]).length + argv.length ≤ MAXARGS - 1 := by
      simp only [List.length_append, List.length_cons, List.length_nil] at hlen ⊢
      omega
    obtain ⟨k, hk, hkt⟩ := @ih (argv0 ++ [(q, eq)]) (rs0 ++ rs) j.1 hj hlen'
    refine ⟨k, ?_, hkt⟩
    have hmax : ¬ argv0.length + 1 ≥ MAXARGS := by
      simp only [List.length_cons] at hlen
      have : 1 ≤ MAXARGS := by decide
      omega
    rw [execLoop, if_neg (by rw [hp]; decide)]
    dsimp only
    rw [dif_neg (by rw [ha]; decide), if_neg (by rw [ha]; exact not_not.mpr rfl), if_neg hmax, hrec]
    dsimp only
    rw [hq, heq, hk]
    simp

end Loops

/-! ### Soundness -/

/-- What a parsing function returns from `i`, when it returns: the tokens it took are derived from
`nt` with the tree it returns, and it stops within the line. -/
def Sound (s : List Char) (es : Nat) (nt : NT) (p : (i : Nat) → Option (Cmd × After i))
    (i : Nat) : Prop :=
  ∀ c j, p i = some (c, j) → j.1 ≤ es ∧ ∃ t, toks s es i = t ++ toks s es j.1 ∧ Derives nt t c

section Sound

variable {s : List Char} {es : Nat}

/-- `parseblock`: `'(' line ')' redir*`, given `parseline` after the `(`. -/
theorem parseblock_sound {i : Nat} (hi : i ≤ es)
    (ih : ∀ i', i < i' → i' ≤ es → Sound s es .line (parseline s es) i') :
    Sound s es .exec (parseblock s es) i := by
  intro c j h
  unfold parseblock at h
  split at h
  · next hp =>
    have hg := toks_of_peek_one (by decide) (by decide) hp
    have hlt := lt_of_peek hp
    have hle : (gettoken s es (peek s es i ['(']).2).2.2.2 ≤ es :=
      gettoken_le (peek_snd_le ['('] hi)
    split at h
    · cases h
    · next cmd j1 hl =>
      -- the line inside the parentheses
      obtain ⟨hj1, tl, htl, hd⟩ := ih _ hlt.2 hle cmd j1 hl
      split at h
      · next hp' =>
        have hg' := toks_of_peek_one (by decide) (by decide) hp'
        split at h
        · cases h
        · next rs k hr =>
          simp only [Option.some.injEq, Prod.mk.injEq] at h
          obtain ⟨rfl, rfl⟩ := h
          obtain ⟨hk, tr, htr, hrs⟩ := parseredirs_sound (gettoken_le (peek_snd_le [')'] hj1)) hr
          refine ⟨hk, .sym '(' :: tl ++ .sym ')' :: tr, ?_, .block hd hrs⟩
          rw [hg, htl, hg', htr]
          simp
      · cases h
  · cases h

/-- `parseexec`: a block, or `redir* (word redir*)*`. -/
theorem parseexec_sound {i : Nat} (hi : i ≤ es)
    (hb : Sound s es .exec (parseblock s es) (peek s es i ['(']).2) :
    Sound s es .exec (parseexec s es) i := by
  intro c j h
  unfold parseexec at h
  split at h
  · split at h
    · cases h
    · next cmd j1 hbl =>
      simp only [Option.some.injEq, Prod.mk.injEq] at h
      obtain ⟨rfl, rfl⟩ := h
      obtain ⟨hj1, t, ht, hd⟩ := hb cmd j1 hbl
      exact ⟨hj1, t, by rw [← toks_peek ['('] i, ht], hd⟩
  · split at h
    · cases h
    · next rs j1 hr =>
      split at h
      · cases h
      · next argv rs' k hloop =>
        simp only [Option.some.injEq, Prod.mk.injEq] at h
        obtain ⟨rfl, rfl⟩ := h
        -- the redirections before the first word, then the word loop
        obtain ⟨hj1, tr, htr, hrs⟩ := parseredirs_sound (peek_snd_le ['('] hi) hr
        obtain ⟨hk, hl, tw, argv', rs'', htw, hw, rfl, rfl⟩ := execLoop_sound hj1 (by simp) hloop
        refine ⟨hk, tr ++ tw, ?_, ?_⟩
        · rw [← toks_peek ['('] i, htr, htw, List.append_assoc]
        · exact .simple hrs hw hl

/-- `parsepipe`: `exec ('|' pipe)?`, given `parseexec` here and `parsepipe` after the `|`. -/
theorem parsepipe_sound {i : Nat} (he : Sound s es .exec (parseexec s es) i)
    (ih : ∀ i', i < i' → i' ≤ es → Sound s es .pipe (parsepipe s es) i') :
    Sound s es .pipe (parsepipe s es) i := by
  intro c j h
  unfold parsepipe at h
  split at h
  · cases h
  · next cmd i1 hex =>
    obtain ⟨hi1, te, hte, hd⟩ := he cmd i1 hex
    split at h
    · next hp =>
      have hg := toks_of_peek_one (by decide) (by decide) hp
      have hlt : i < (gettoken s es (peek s es i1.1 ['|']).2).2.2.2 := by
        have h1 := i1.2
        have h2 := (lt_of_peek hp).2
        omega
      split at h
      · cases h
      · next right j1 hpp =>
        simp only [Option.some.injEq, Prod.mk.injEq] at h
        obtain ⟨rfl, rfl⟩ := h
        obtain ⟨hj1, tp, htp, hdp⟩ :=
          ih _ hlt (gettoken_le (peek_snd_le ['|'] hi1)) right j1 hpp
        refine ⟨hj1, te ++ .sym '|' :: tp, ?_, .pipe hd hdp⟩
        rw [hte, hg, htp]
        simp
    · simp only [Option.some.injEq, Prod.mk.injEq] at h
      obtain ⟨rfl, rfl⟩ := h
      exact ⟨peek_snd_le ['|'] hi1, te, by rw [toks_peek, hte], .exec hd⟩

/-- `parseline`: `pipe ('&')* (';' line)?`, given `parsepipe` here and `parseline` after the
`;`. -/
theorem parseline_sound {i : Nat} (hp : Sound s es .pipe (parsepipe s es) i)
    (ih : ∀ i', i < i' → i' ≤ es → Sound s es .line (parseline s es) i') :
    Sound s es .line (parseline s es) i := by
  intro c j h
  unfold parseline at h
  split at h
  · cases h
  · next cmd i1 hpp =>
    obtain ⟨hi1, tp, htp, hd⟩ := hp cmd i1 hpp
    -- the `&` loop
    obtain ⟨k, hk, hb, -⟩ := @parseBacks_spec s es cmd i1.1
    have hble := @parseBacks_snd_le s es cmd _ hi1
    dsimp only at h
    split at h
    · next hsc =>
      have hg := toks_of_peek_one (by decide) (by decide) hsc
      have hlt : i < (gettoken s es (peek s es (parseBacks s es cmd i1.1).2 [';']).2).2.2.2 := by
        have h1 := i1.2
        have h2 := parseBacks_le s es cmd i1.1
        have h3 := (lt_of_peek hsc).2
        omega
      split at h
      · cases h
      · next right j1 hl =>
        simp only [Option.some.injEq, Prod.mk.injEq] at h
        obtain ⟨rfl, rfl⟩ := h
        obtain ⟨hj1, tl, htl, hdl⟩ := ih _ hlt (gettoken_le (peek_snd_le [';'] hble)) right j1 hl
        refine ⟨hj1, tp ++ List.replicate k (.sym '&') ++ .sym ';' :: tl, ?_, ?_⟩
        · rw [htp, hk, hg, htl]
          simp
        · rw [hb]
          exact .list k hd hdl
    · simp only [Option.some.injEq, Prod.mk.injEq] at h
      obtain ⟨rfl, rfl⟩ := h
      refine ⟨peek_snd_le [';'] hble, tp ++ List.replicate k (.sym '&'), ?_, ?_⟩
      · rw [htp, hk, toks_peek]
        simp
      · rw [hb]
        exact .backs k hd

/-- Every parse from a position within the line is sound: by induction on the tokens left, with
`parseblock` and `parseexec` at the same position in between. -/
theorem parse_sound {i : Nat} (hi : i ≤ es) :
    Sound s es .line (parseline s es) i ∧ Sound s es .pipe (parsepipe s es) i := by
  have ih : ∀ i', i < i' → i' ≤ es →
      Sound s es .line (parseline s es) i' ∧ Sound s es .pipe (parsepipe s es) i' :=
    fun i' _ hi' => parse_sound hi'
  have hb : Sound s es .exec (parseblock s es) (peek s es i ['(']).2 :=
    parseblock_sound (peek_snd_le ['('] hi) fun i' hlt hi' =>
      (ih i' (Nat.lt_of_le_of_lt (peek_le ['('] i) hlt) hi').1
  have hpipe : Sound s es .pipe (parsepipe s es) i :=
    parsepipe_sound (parseexec_sound hi hb) fun i' hlt hi' => (ih i' hlt hi').2
  exact ⟨parseline_sound hpipe fun i' hlt hi' => (ih i' hlt hi').1, hpipe⟩
termination_by es - i

end Sound

/-! ### Completeness -/

/-- The parsing function of each nonterminal. -/
def parseNT (s : List Char) (es : Nat) : NT → (i : Nat) → Option (Cmd × After i)
  | .line => parseline s es
  | .pipe => parsepipe s es
  | .exec => parseexec s es

/-- A parsing function returns the tree `c` of the tokens `t` from every position where `t` comes
next, followed by what may follow `nt`, and stops after `t`. -/
def Complete (s : List Char) (es : Nat) (nt : NT) (p : (i : Nat) → Option (Cmd × After i))
    (t : List Tok) (c : Cmd) : Prop :=
  ∀ i rest, toks s es i = t ++ rest → Follow nt rest →
    (p i).map (fun r => (r.1, toks s es r.2.1)) = some (c, rest)

section Complete

variable {s : List Char} {es : Nat}

theorem exists_of_map_eq {i : Nat} {o : Option (Cmd × After i)} {c : Cmd} {rest : List Tok}
    (h : o.map (fun r => (r.1, toks s es r.2.1)) = some (c, rest)) :
    ∃ j : After i, o = some (c, j) ∧ toks s es j.1 = rest := by
  obtain ⟨⟨c', j⟩, ho, he⟩ := Option.map_eq_some_iff.mp h
  simp only [Prod.mk.injEq] at he
  obtain ⟨rfl, rfl⟩ := he
  exact ⟨j, ho, rfl⟩

/-- `parseexec` on `redir* (word redir*)*`. -/
theorem parseexec_complete_simple {tr tw : List Tok} {rs rs' : List Redir}
    {argv : List (Nat × Nat)} (hr : Redirs tr rs) (hw : Words tw argv rs')
    (hlen : argv.length ≤ MAXARGS - 1) :
    Complete s es .exec (parseexec s es) (tr ++ tw) (wrap (.exec argv) (rs ++ rs')) := by
  intro i rest ht hf
  rw [List.append_assoc] at ht
  -- a simple command does not start with `(`
  have hp : (peek s es i ['(']).1 = false := by
    refine peek_of_head (by decide) ?_
    rw [ht]
    refine head_append (fun x hx => ?_) (head_append (hw.peekIn _) (hf.peekIn (by simp [followSyms])))
    obtain ⟨op, hop, rfl⟩ := hr.head x hx
    simp only [List.mem_cons, List.not_mem_nil, or_false] at hop
    rcases hop with rfl | rfl | rfl <;> rfl
  obtain ⟨j, hrec, hj⟩ :=
    parseredirs_complete hr (by rw [toks_peek ['(']]; exact ht) (hw.not_redir_append hf)
  obtain ⟨k, hk, hkt⟩ := @execLoop_complete s es _ _ _ hw [] rs j.1 rest hj hf (by simpa using hlen)
  unfold parseexec
  rw [if_neg (by rw [hp]; decide), hrec]
  dsimp only
  split
  · next heq =>
    rw [hk] at heq
    cases heq
  · next argv' rs'' k' heq =>
    rw [hk] at heq
    simp only [Option.some.injEq, Prod.mk.injEq] at heq
    obtain ⟨rfl, rfl, rfl⟩ := heq
    simp [hkt]

/-- `parseexec` on `'(' line ')' redir*`, given `parseline` on the line inside. -/
theorem parseexec_complete_block {tl tr : List Tok} {c : Cmd} {rs : List Redir}
    (hl : Complete s es .line (parseline s es) tl c) (hr : Redirs tr rs) :
    Complete s es .exec (parseexec s es) (.sym '(' :: tl ++ .sym ')' :: tr) (wrap c rs) := by
  intro i rest ht hf
  simp only [List.cons_append, List.append_assoc] at ht
  have hp : (peek s es i ['(']).1 = true := by
    rw [peek_of_toks (by decide) ht]
    rfl
  -- `parseblock` peeks at the same `(` and takes it
  have ht' : toks s es (peek s es (peek s es i ['(']).2 ['(']).2 =
      .sym '(' :: (tl ++ .sym ')' :: (tr ++ rest)) := by
    rw [toks_peek, toks_peek, ht]
  have hp' : (peek s es (peek s es i ['(']).2 ['(']).1 = true := by
    rw [peek_of_toks (by decide) (by rw [toks_peek ['(']]; exact ht)]
    rfl
  obtain ⟨-, hg⟩ := gettoken_of_toks_sym ht'
  obtain ⟨j, hj, hjt⟩ := exists_of_map_eq (hl _ _ (by rw [hg, ← List.cons_append])
    (Follow.cons (by decide) _))
  have hpc : (peek s es j.1 [')']).1 = true := by
    rw [peek_of_toks (by decide) hjt]
    rfl
  obtain ⟨-, hg'⟩ := gettoken_of_toks_sym (by rw [toks_peek [')']]; exact hjt)
  obtain ⟨k, hrec, hkt⟩ := parseredirs_complete hr hg' hf.not_redir
  unfold parseexec
  rw [if_pos hp]
  unfold parseblock
  rw [dif_pos hp', hj]
  dsimp only
  rw [if_pos hpc, hrec]
  simp [hkt]

/-- `parsepipe` on `exec`, given `parseexec` on it. -/
theorem parsepipe_complete_exec {t : List Tok} {c : Cmd}
    (he : Complete s es .exec (parseexec s es) t c) :
    Complete s es .pipe (parsepipe s es) t c := by
  intro i rest ht hf
  obtain ⟨j, hj, hjt⟩ := exists_of_map_eq (he i rest ht hf.exec_of_pipe)
  have hp : (peek s es j.1 ['|']).1 = false :=
    peek_of_head (by decide) (by rw [hjt]; exact hf.peekIn (by simp [followSyms]))
  unfold parsepipe
  rw [hj]
  dsimp only
  rw [dif_neg (by rw [hp]; decide)]
  simp [toks_peek, hjt]

/-- `parsepipe` on `exec '|' pipe`, given `parseexec` and `parsepipe` on the two. -/
theorem parsepipe_complete_pipe {te tp : List Tok} {c c' : Cmd}
    (he : Complete s es .exec (parseexec s es) te c)
    (hp : Complete s es .pipe (parsepipe s es) tp c') :
    Complete s es .pipe (parsepipe s es) (te ++ .sym '|' :: tp) (.pipe c c') := by
  intro i rest ht hf
  rw [List.append_assoc, List.cons_append] at ht
  obtain ⟨j, hj, hjt⟩ := exists_of_map_eq (he i _ ht (Follow.cons (by decide) _))
  have hpp : (peek s es j.1 ['|']).1 = true := by
    rw [peek_of_toks (by decide) hjt]
    rfl
  obtain ⟨-, hg⟩ := gettoken_of_toks_sym (by rw [toks_peek ['|']]; exact hjt)
  obtain ⟨k, hk, hkt⟩ := exists_of_map_eq (hp _ rest hg hf)
  unfold parsepipe
  rw [hj]
  dsimp only
  rw [dif_pos hpp, hk]
  simp [hkt]

/-- `parseline` on `pipe '&'*`, given `parsepipe` on the pipe. -/
theorem parseline_complete_backs {tp : List Tok} {c : Cmd} (k : Nat)
    (hp : Complete s es .pipe (parsepipe s es) tp c) :
    Complete s es .line (parseline s es) (tp ++ List.replicate k (.sym '&')) (Cmd.back^[k] c) := by
  intro i rest ht hf
  rw [List.append_assoc] at ht
  have hf' : Follow .pipe (List.replicate k (.sym '&') ++ rest) := by
    cases k with
    | zero => exact hf.pipe_of_line
    | succ k => exact Follow.cons (by decide) _
  obtain ⟨j, hj, hjt⟩ := exists_of_map_eq (hp i _ ht hf')
  -- the `&` loop takes exactly the `k` ampersands, since the line ends after them
  obtain ⟨k', hk', hb, hhd⟩ := @parseBacks_spec s es c j.1
  have hnot : ∀ x ∈ rest.head?, x ≠ .sym '&' := fun x hx h => by
    have := hf x hx
    rw [h] at this
    exact absurd this (by decide)
  obtain ⟨rfl, hrest⟩ := replicate_append_inj (hjt.symm.trans hk') hnot hhd
  have hsc : (peek s es (parseBacks s es c j.1).2 [';']).1 = false :=
    peek_of_head (by decide) (by rw [← hrest]; exact hf.peekIn (by simp [followSyms]))
  unfold parseline
  rw [hj]
  dsimp only
  rw [dif_neg (by rw [hsc]; decide)]
  simp [hb, toks_peek, ← hrest]

/-- `parseline` on `pipe '&'* ';' line`, given `parsepipe` and `parseline` on the two. -/
theorem parseline_complete_list {tp tl : List Tok} {c c' : Cmd} (k : Nat)
    (hp : Complete s es .pipe (parsepipe s es) tp c)
    (hl : Complete s es .line (parseline s es) tl c') :
    Complete s es .line (parseline s es) (tp ++ List.replicate k (.sym '&') ++ .sym ';' :: tl)
      (.list (Cmd.back^[k] c) c') := by
  intro i rest ht hf
  simp only [List.append_assoc, List.cons_append] at ht
  have hf' : Follow .pipe (List.replicate k (.sym '&') ++ .sym ';' :: (tl ++ rest)) := by
    cases k with
    | zero => exact Follow.cons (by decide) _
    | succ k => exact Follow.cons (by decide) _
  obtain ⟨j, hj, hjt⟩ := exists_of_map_eq (hp i _ ht hf')
  obtain ⟨k', hk', hb, hhd⟩ := @parseBacks_spec s es c j.1
  obtain ⟨rfl, hrest⟩ := replicate_append_inj (hjt.symm.trans hk') (by simp) hhd
  have hsc : (peek s es (parseBacks s es c j.1).2 [';']).1 = true := by
    rw [peek_of_toks (by decide) hrest.symm]
    rfl
  obtain ⟨-, hg⟩ := gettoken_of_toks_sym (by rw [toks_peek [';']]; exact hrest.symm)
  obtain ⟨j', hj', hj't⟩ := exists_of_map_eq (hl _ rest hg hf)
  unfold parseline
  rw [hj]
  dsimp only
  rw [dif_pos hsc, hj']
  simp [hb, hj't]

/-- What the grammar derives, followed by what may follow it, the parser returns. -/
theorem derives_complete {nt : NT} {t : List Tok} {c : Cmd} (hd : Derives nt t c) :
    Complete s es nt (parseNT s es nt) t c := by
  induction hd with
  | simple hr hw hlen => exact parseexec_complete_simple hr hw hlen
  | block _ hr ih => exact parseexec_complete_block ih hr
  | exec _ ih => exact parsepipe_complete_exec ih
  | pipe _ _ ihe ihp => exact parsepipe_complete_pipe ihe ihp
  | backs k _ ih => exact parseline_complete_backs k ih
  | list k _ _ ihp ihl => exact parseline_complete_list k ihp ihl

end Complete

/-! ### The strings of the tree -/

section Words

variable {s : List Char} {es : Nat}

/-- Every word `gettoken` reads is a maximal run of characters outside `whitespace` and
`symbols`, before `es`. -/
theorem word_of_mem_toks {i q eq : Nat} (h : Tok.word q eq ∈ toks s es i) :
    q < eq ∧ eq ≤ es ∧
      (∀ k, q ≤ k → k < eq → k < es ∧ charAt s es k ∉ whitespace ∧ charAt s es k ∉ symbols) ∧
      (eq < es → charAt s es eq ∈ whitespace ∨ charAt s es eq ∈ symbols) := by
  fun_induction toks s es i with
  | case1 i h0 => cases h
  | case2 i h0 ih =>
    rcases List.mem_cons.mp h with h | h
    · obtain ⟨ha, rfl, rfl⟩ := ofRet_eq_word h.symm
      exact gettoken_word ha
    · exact ih h

theorem words_wrap (c : Cmd) (rs : List Redir) :
    (wrap c rs).words = c.words ++ rs.map (fun r => (r.file, r.efile)) := by
  induction rs generalizing c with
  | nil => simp [wrap]
  | cons r rs ih =>
    rw [wrap, List.foldl_cons, ← wrap, ih]
    simp [Cmd.words]

theorem words_backs (c : Cmd) (k : Nat) : (Cmd.back^[k] c).words = c.words := by
  induction k generalizing c with
  | zero => rfl
  | succ k ih => rw [Function.iterate_succ_apply, ih, Cmd.words]

theorem mem_redirOf {op : Char} {q eq : Nat} {r : Redir} (h : r ∈ redirOf op q eq) :
    r.file = q ∧ r.efile = eq := by
  unfold redirOf at h
  split at h <;> simp_all

/-- The files of `redir*` are its words. -/
theorem Redirs.files {t : List Tok} {rs : List Redir} (hr : Redirs t rs) :
    ∀ r ∈ rs, Tok.word r.file r.efile ∈ t := by
  induction hr with
  | nil => simp
  | @cons op q eq t rs _ _ ih =>
    intro r hr
    rcases List.mem_append.mp hr with hr | hr
    · obtain ⟨hq, heq⟩ := mem_redirOf hr
      simp [hq, heq]
    · exact List.mem_cons_of_mem _ (List.mem_cons_of_mem _ (ih r hr))

/-- The words and files of `(word redir*)*` are its words. -/
theorem Words.words {t : List Tok} {argv : List (Nat × Nat)} {rs : List Redir}
    (hw : Words t argv rs) :
    (∀ w ∈ argv, Tok.word w.1 w.2 ∈ t) ∧ ∀ r ∈ rs, Tok.word r.file r.efile ∈ t := by
  induction hw with
  | nil => simp
  | @cons q eq t t' rs rs' argv hr _ ih =>
    refine ⟨fun w hw => ?_, fun r hr' => ?_⟩
    · rcases List.mem_cons.mp hw with rfl | hw
      · simp
      · simp [ih.1 w hw]
    · rcases List.mem_append.mp hr' with hr' | hr'
      · simp [hr.files r hr']
      · simp [ih.2 r hr']

/-- Every string of a derivation's tree is one of its words. -/
theorem Derives.words_mem {nt : NT} {t : List Tok} {c : Cmd} (hd : Derives nt t c) :
    ∀ w ∈ c.words, Tok.word w.1 w.2 ∈ t := by
  induction hd with
  | simple hr hw _ =>
    intro w hw'
    rw [words_wrap, Cmd.words, List.map_append] at hw'
    rcases List.mem_append.mp hw' with h | h
    · exact List.mem_append_right _ (hw.words.1 w h)
    · rcases List.mem_append.mp h with h | h
      · obtain ⟨r, hr', rfl⟩ := List.mem_map.mp h
        exact List.mem_append_left _ (hr.files r hr')
      · obtain ⟨r, hr', rfl⟩ := List.mem_map.mp h
        exact List.mem_append_right _ (hw.words.2 r hr')
  | block _ hr ih =>
    intro w hw'
    rw [words_wrap] at hw'
    rcases List.mem_append.mp hw' with h | h
    · simp [ih w h]
    · obtain ⟨r, hr', rfl⟩ := List.mem_map.mp h
      simp [hr.files r hr']
  | exec _ ih => exact ih
  | pipe _ _ ihe ihp =>
    intro w hw'
    rcases List.mem_append.mp hw' with h | h
    · simp [ihe w h]
    · simp [ihp w h]
  | backs k _ ih =>
    intro w hw'
    rw [words_backs] at hw'
    simp [ih w hw']
  | list k _ _ ihp ihl =>
    intro w hw'
    rcases List.mem_append.mp hw' with h | h
    · rw [words_backs] at h
      simp [ihp w h]
    · simp [ihl w h]

/-- After `nulterminate`, the C string at each string of a tree whose strings are words of the
line is that word: the NUL after one word is never inside another. -/
theorem cstr_nulterminate {c : Cmd} (hw : ∀ w ∈ c.words, Tok.word w.1 w.2 ∈ toks s (strlen s) 0) :
    ∀ w ∈ c.words, cstr (nulterminate c s) w.1 = (s.drop w.1).take (w.2 - w.1) := by
  intro w hwm
  obtain ⟨hlt, -, hin, -⟩ := word_of_mem_toks (hw w hwm)
  apply cstr_eq_take
  · intro k hk
    obtain ⟨hkes, hkws, hksym⟩ := hin (w.1 + k) (Nat.le_add_right _ _) (by omega)
    -- a character of the word is neither whitespace nor a symbol, so no word ends there
    have hnot : w.1 + k ∉ c.words.map Prod.snd := by
      intro hm
      obtain ⟨w', hw', he'⟩ := List.mem_map.mp hm
      obtain ⟨-, -, -, hend'⟩ := word_of_mem_toks (hw w' hw')
      rw [he'] at hend'
      rcases hend' hkes with h | h
      · exact hkws h
      · exact hksym h
    refine ⟨charAt s (strlen s) (w.1 + k), ?_, getElem?_of_lt_strlen hkes, charAt_strlen hkes⟩
    rw [getElem?_nulterminate, if_neg hnot]
    exact getElem?_of_lt_strlen hkes
  · -- the end of the word is written
    have hm : w.1 + (w.2 - w.1) ∈ c.words.map Prod.snd := by
      rw [Nat.add_sub_cancel' (Nat.le_of_lt hlt)]
      exact List.mem_map_of_mem hwm
    rw [getElem?_nulterminate, if_pos hm]
    cases s[w.1 + (w.2 - w.1)]? <;> simp

end Words

/-! ### `parsecmd` -/

/-- `parsecmd` returns when `parseline` from the start returns and only whitespace is left. -/
theorem parsecmd_eq_some {s : List Char} {c : Cmd} {buf : List Char} :
    parsecmd s = some (c, buf) ↔ ∃ j : After 0, parseline s (strlen s) 0 = some (c, j) ∧
      skipWs s (strlen s) j.1 = strlen s ∧ buf = nulterminate c s := by
  rcases hl : parseline s (strlen s) 0 with _ | ⟨cmd, j⟩
  · simp [parsecmd, hl]
  · have hp : parsecmd s = if skipWs s (strlen s) j.1 ≠ strlen s then none
        else some (cmd, nulterminate cmd s) := by
      simp only [parsecmd, hl]
      rfl
    rw [hp]
    constructor
    · intro h
      split at h
      · cases h
      · next hs =>
        simp only [Option.some.injEq, Prod.mk.injEq] at h
        obtain ⟨rfl, rfl⟩ := h
        exact ⟨j, rfl, not_not.mp hs, rfl⟩
    · rintro ⟨j', hj', hs, rfl⟩
      simp only [Option.some.injEq, Prod.mk.injEq] at hj'
      obtain ⟨rfl, rfl⟩ := hj'
      rw [if_neg (not_not.mpr hs)]

/-- `parsecmd(s)` returns a tree exactly when the tokens of the line are derived from `line`, and
the tree it returns is the derivation's tree; after `nulterminate`, the C string at each `argv`
and `file` pointer of the tree is its word of the line. -/
theorem parsecmd_derives (s : List Char) :
    (∀ c, (∃ buf, parsecmd s = some (c, buf)) ↔ Derives .line (toks s (strlen s) 0) c) ∧
      ∀ c buf, parsecmd s = some (c, buf) →
        ∀ w ∈ c.words, cstr buf w.1 = (s.drop w.1).take (w.2 - w.1) := by
  have hnul : ∀ k < strlen s, charAt s (strlen s) k ≠ '\x00' := fun k hk => charAt_strlen hk
  -- an accepted line: the tokens `parseline` took are all of them
  have hsound : ∀ c buf, parsecmd s = some (c, buf) →
      Derives .line (toks s (strlen s) 0) c ∧ buf = nulterminate c s := by
    intro c buf h
    obtain ⟨j, hl, hskip, rfl⟩ := parsecmd_eq_some.mp h
    obtain ⟨hj, t, ht, hd⟩ := (parse_sound (Nat.zero_le _)).1 c j hl
    rw [(skipWs_eq_iff hnul hj).mp hskip, List.append_nil] at ht
    exact ⟨ht ▸ hd, rfl⟩
  refine ⟨fun c => ⟨fun ⟨buf, h⟩ => (hsound c buf h).1, fun hd => ?_⟩, fun c buf h => ?_⟩
  · -- a derived line: `parseline` takes all of it
    obtain ⟨j, hl, hjt⟩ := exists_of_map_eq
      (derives_complete hd 0 [] (List.append_nil _).symm (fun x hx => by cases hx))
    obtain ⟨hj, -⟩ := (parse_sound (Nat.zero_le _)).1 c j hl
    exact ⟨_, parsecmd_eq_some.mpr ⟨j, hl, (skipWs_eq_iff hnul hj).mpr hjt, rfl⟩⟩
  · obtain ⟨hd, rfl⟩ := hsound c buf h
    exact cstr_nulterminate hd.words_mem

end Xv6Sched.Sh
