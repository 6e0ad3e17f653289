import Xv6Sched.User.Grep
import Mathlib.Data.List.TakeWhile

/-!
# Xv6Sched.User.ShLex — `gettoken` and `peek` of `user/sh.c`

The command line is a pointer `s` into the buffer and its end `es = s + strlen(s)`; a position is
an index into the buffer, and `*p` reads the terminating NUL at `es` (`charAt`).  `gettoken`
skips whitespace, reads one token (a symbol, `>>` as `'+'`, or a maximal run of other characters
as `'a'`), and skips the whitespace after it; `peek` skips whitespace and looks at one character.

`toks`: the tokens `gettoken` reads from a position to the end of the line.  The parser reads
its input only through `peek` and `gettoken`, and both are functions of `toks`: `peek_fst` says
what `peek` sees of it, `toks_of_ne` and `toks_of_eq` how `gettoken` takes its head.
`gettoken_word` says what a word is: a maximal run of characters outside `whitespace` and
`symbols`, before `es`.
-/

namespace Xv6Sched.Sh

open Ulib

/-- `char whitespace[] = " \t\r\n\v"`. -/
def whitespace : List Char := [' ', '\t', '\r', '\n', '\x0b']

/-- `char symbols[] = "<|>&;()"`. -/
def symbols : List Char := ['<', '|', '>', '&', ';', '(', ')']

/-- `strlen(s)`. -/
def strlen (s : List Char) : Nat := (s.takeWhile (· ≠ '\x00')).length

/-- `*p` for `p` a position of the line `s` with end `es`: the byte, and the terminating NUL at
`es` (the parser reads no further). -/
def charAt (s : List Char) (es i : Nat) : Char := if i < es then s.getD i '\x00' else '\x00'

/-- `while(s < es && strchr(whitespace, *s)) s++;` -/
def skipWs (s : List Char) (es i : Nat) : Nat :=
  if i < es ∧ strchr whitespace (charAt s es i) ≠ none then skipWs s es (i + 1) else i
termination_by es - i

/-- The word loop of `gettoken`:
`while(s < es && !strchr(whitespace, *s) && !strchr(symbols, *s)) s++;` -/
def skipWord (s : List Char) (es i : Nat) : Nat :=
  if i < es ∧ strchr whitespace (charAt s es i) = none ∧ strchr symbols (charAt s es i) = none then
    skipWord s es (i + 1)
  else i
termination_by es - i

/-- The `switch(*s)` of `gettoken` at `p`: `ret`, and where the token ends. -/
def tokenAt (s : List Char) (es p : Nat) : Char × Nat :=
  match charAt s es p with
  | '\x00' => ('\x00', p)
  | '|' | '(' | ')' | ';' | '&' | '<' => (charAt s es p, p + 1)
  | '>' => if charAt s es (p + 1) = '>' then ('+', p + 2) else ('>', p + 1)
  | _ => ('a', skipWord s es p)

/-- `gettoken(ps, es, &q, &eq)`: the token (`ret`), `q`, `eq`, and the new `*ps`. -/
def gettoken (s : List Char) (es i : Nat) : Char × Nat × Nat × Nat :=
  let p := skipWs s es i
  ((tokenAt s es p).1, p, (tokenAt s es p).2, skipWs s es (tokenAt s es p).2)

/-- `peek(ps, es, toks)`: whether the next character is one of `toks`, and the new `*ps`. -/
def peek (s : List Char) (es i : Nat) (toks : List Char) : Bool × Nat :=
  let p := skipWs s es i
  (decide (charAt s es p ≠ '\x00' ∧ strchr toks (charAt s es p) ≠ none), p)

/-! ### Skipping -/

section Skip

variable {s : List Char} {es : Nat}

theorem charAt_of_ge {i : Nat} (h : es ≤ i) : charAt s es i = '\x00' := by
  simp [charAt, Nat.not_lt.mpr h]

theorem lt_of_charAt_ne {i : Nat} (h : charAt s es i ≠ '\x00') : i < es := by
  by_contra hge
  exact h (charAt_of_ge (Nat.not_lt.mp hge))

theorem skipWs_of_ws {i : Nat} (hi : i < es) (hw : charAt s es i ∈ whitespace) :
    skipWs s es i = skipWs s es (i + 1) := by
  rw [skipWs, if_pos ⟨hi, strchr_eq_none.not.mpr (not_not.mpr hw)⟩]

theorem skipWs_of_not {i : Nat} (h : ¬ (i < es ∧ charAt s es i ∈ whitespace)) :
    skipWs s es i = i := by
  rw [skipWs, if_neg]
  rwa [ne_eq, strchr_eq_none, not_not]

/-- What `skipWs` stops at: not before `i`, and at `es` or a character that is not whitespace. -/
theorem skipWs_spec (i : Nat) :
    i ≤ skipWs s es i ∧ ¬ (skipWs s es i < es ∧ charAt s es (skipWs s es i) ∈ whitespace) ∧
      (i ≤ es → skipWs s es i ≤ es) := by
  induction i using skipWs.induct s es with
  | case1 i h ih =>
    rw [ne_eq, strchr_eq_none, not_not] at h
    rw [skipWs_of_ws h.1 h.2]
    exact ⟨by omega, ih.2.1, fun _ => ih.2.2 (by omega)⟩
  | case2 i h =>
    rw [ne_eq, strchr_eq_none, not_not] at h
    rw [skipWs_of_not h]
    exact ⟨Nat.le_refl _, h, id⟩

theorem skipWs_skipWs (i : Nat) : skipWs s es (skipWs s es i) = skipWs s es i :=
  skipWs_of_not (skipWs_spec i).2.1

/-- What the word loop stops at: not before `i`, only word characters passed over, and at `es`
or a character that ends a word. -/
theorem skipWord_spec (i : Nat) :
    i ≤ skipWord s es i ∧ (∀ k, i ≤ k → k < skipWord s es i →
        k < es ∧ charAt s es k ∉ whitespace ∧ charAt s es k ∉ symbols) ∧
      (i ≤ es → skipWord s es i ≤ es) ∧
      ¬ (skipWord s es i < es ∧ charAt s es (skipWord s es i) ∉ whitespace ∧
        charAt s es (skipWord s es i) ∉ symbols) := by
  induction i using skipWord.induct s es with
  | case1 i h ih =>
    rw [skipWord, if_pos h]
    rw [strchr_eq_none, strchr_eq_none] at h
    refine ⟨by omega, fun k hk hk' => ?_, fun _ => ih.2.2.1 (by omega), ih.2.2.2⟩
    rcases Nat.eq_or_lt_of_le hk with rfl | hk
    · exact h
    · exact ih.2.1 k hk hk'
  | case2 i h =>
    rw [skipWord, if_neg h]
    rw [strchr_eq_none, strchr_eq_none] at h
    exact ⟨Nat.le_refl _, fun k hk hk' => absurd hk' (by omega), id, h⟩

end Skip

/-! ### One token -/

section Token

variable {s : List Char} {es : Nat}

/-- A token `gettoken` returns: a word `[q, eq)` of the line, or a symbol (`'+'` for `>>`). -/
inductive Tok where
  | word (q eq : Nat)
  | sym (c : Char)
deriving DecidableEq, Repr

/-- The token for `gettoken`'s `ret`, `q` and `eq`. -/
def Tok.ofRet (ret : Char) (q eq : Nat) : Tok := if ret = 'a' then .word q eq else .sym ret

/-- The cases of the `switch` of `gettoken`. -/
theorem tokenAt_cases (p : Nat) :
    (charAt s es p = '\x00' ∧ tokenAt s es p = ('\x00', p)) ∨
    (charAt s es p ∈ ['|', '(', ')', ';', '&', '<'] ∧ tokenAt s es p = (charAt s es p, p + 1)) ∨
    (charAt s es p = '>' ∧ charAt s es (p + 1) = '>' ∧ tokenAt s es p = ('+', p + 2)) ∨
    (charAt s es p = '>' ∧ charAt s es (p + 1) ≠ '>' ∧ tokenAt s es p = ('>', p + 1)) ∨
    (charAt s es p ∉ symbols ∧ charAt s es p ≠ '\x00' ∧ tokenAt s es p = ('a', skipWord s es p)) := by
  unfold tokenAt
  split
  · next h => exact Or.inl ⟨h, rfl⟩
  all_goals first
    | (next h => exact Or.inr (Or.inl ⟨by simp [h], rfl⟩))
    | skip
  · next h =>
    by_cases h2 : charAt s es (p + 1) = '>'
    · exact Or.inr (Or.inr (Or.inl ⟨h, h2, if_pos h2⟩))
    · exact Or.inr (Or.inr (Or.inr (Or.inl ⟨h, h2, if_neg h2⟩)))
  · next h0 h1 h2 h3 h4 h5 h6 h7 =>
    refine Or.inr (Or.inr (Or.inr (Or.inr ⟨?_, h0, rfl⟩)))
    simp only [symbols, List.mem_cons, List.not_mem_nil, or_false, not_or]
    exact ⟨h6, h1, h7, h5, h4, h2, h3⟩

theorem gettoken_fst (i : Nat) : (gettoken s es i).1 = (tokenAt s es (skipWs s es i)).1 := rfl

/-- The `switch` returns the end exactly at the NUL. -/
theorem tokenAt_fst_eq_nul_iff (p : Nat) : (tokenAt s es p).1 = '\x00' ↔ charAt s es p = '\x00' := by
  rcases @tokenAt_cases s es p with ⟨h0, ht⟩ | ⟨-, ht⟩ | ⟨hc, -, ht⟩ | ⟨hc, -, ht⟩ |
      ⟨-, h0, ht⟩
  · simp [ht, h0]
  · simp [ht]
  · simp [ht, hc]
  · simp [ht, hc]
  · simp [ht, h0]

/-- Past whitespace, a token that is not the end starts before `es` and ends after its start. -/
theorem tokenAt_advance {p : Nat} (h : (tokenAt s es p).1 ≠ '\x00')
    (hstop : ¬ (p < es ∧ charAt s es p ∈ whitespace)) :
    p < es ∧ p < (tokenAt s es p).2 := by
  rcases @tokenAt_cases s es p with ⟨h0, ht⟩ | ⟨hc, ht⟩ | ⟨hc, -, ht⟩ | ⟨hc, -, ht⟩ |
      ⟨hsym, h0, ht⟩
  · rw [ht] at h
    exact absurd rfl h
  all_goals rw [ht]
  · have : charAt s es p ≠ '\x00' := by intro h0; rw [h0] at hc; simp at hc
    exact ⟨lt_of_charAt_ne this, by simp⟩
  · exact ⟨lt_of_charAt_ne (by rw [hc]; decide), by simp⟩
  · exact ⟨lt_of_charAt_ne (by rw [hc]; decide), by simp⟩
  · -- a word character: the loop passes it, so it ends after `p`
    have hlt := lt_of_charAt_ne h0
    have hws : charAt s es p ∉ whitespace := fun hw => hstop ⟨hlt, hw⟩
    obtain ⟨hle, -, -, hend⟩ := @skipWord_spec s es p
    refine ⟨hlt, Nat.lt_of_le_of_ne hle fun heq => hend ?_⟩
    have heq' : skipWord s es p = p := heq.symm
    rw [heq']
    exact ⟨hlt, hws, hsym⟩

/-- `gettoken` past a token that is not the end: the token starts before `es`, and the new
position is after it. -/
theorem gettoken_advance (i : Nat) (h : (gettoken s es i).1 ≠ '\x00') :
    i ≤ (gettoken s es i).2.1 ∧ (gettoken s es i).2.1 < es ∧
      (gettoken s es i).2.1 < (gettoken s es i).2.2.1 ∧
      (gettoken s es i).2.2.1 ≤ (gettoken s es i).2.2.2 := by
  obtain ⟨hle, hstop, -⟩ := @skipWs_spec s es i
  obtain ⟨hlt, hend⟩ := tokenAt_advance h hstop
  exact ⟨hle, hlt, hend, (skipWs_spec _).1⟩

/-- `gettoken` never moves backward. -/
theorem gettoken_mono (i : Nat) : i ≤ (gettoken s es i).2.2.2 := by
  obtain ⟨hle, -, -⟩ := @skipWs_spec s es i
  have hend : skipWs s es i ≤ (tokenAt s es (skipWs s es i)).2 := by
    rcases @tokenAt_cases s es (skipWs s es i) with ⟨-, ht⟩ | ⟨-, ht⟩ |
        ⟨-, -, ht⟩ | ⟨-, -, ht⟩ | ⟨-, -, ht⟩
    · simp [ht]
    · simp [ht]
    · simp [ht]
    · simp [ht]
    · simp only [ht]
      exact (skipWord_spec _).1
  exact Nat.le_trans hle (Nat.le_trans hend (skipWs_spec _).1)

/-- The tokens `gettoken` reads from `i` to the end of the line. -/
def toks (s : List Char) (es i : Nat) : List Tok :=
  if _h : (gettoken s es i).1 = '\x00' then []
  else Tok.ofRet (gettoken s es i).1 (gettoken s es i).2.1 (gettoken s es i).2.2.1 ::
    toks s es (gettoken s es i).2.2.2
termination_by es - i
decreasing_by have := gettoken_advance i _h; omega

theorem toks_of_eq {i : Nat} (h : (gettoken s es i).1 = '\x00') : toks s es i = [] := by
  rw [toks, dif_pos h]

theorem toks_of_ne {i : Nat} (h : (gettoken s es i).1 ≠ '\x00') :
    toks s es i = Tok.ofRet (gettoken s es i).1 (gettoken s es i).2.1 (gettoken s es i).2.2.1 ::
      toks s es (gettoken s es i).2.2.2 := by
  rw [toks, dif_neg h]

theorem gettoken_skipWs (i : Nat) : gettoken s es (skipWs s es i) = gettoken s es i := by
  simp only [gettoken, skipWs_skipWs]

theorem toks_skipWs (i : Nat) : toks s es (skipWs s es i) = toks s es i := by
  by_cases h : (gettoken s es i).1 = '\x00'
  · rw [toks_of_eq (by rw [gettoken_skipWs]; exact h), toks_of_eq h]
  · rw [toks_of_ne (by rw [gettoken_skipWs]; exact h), toks_of_ne h, gettoken_skipWs]

/-- When `peek` saw one of its characters, the `gettoken` after it does not stop at the end. -/
theorem gettoken_ne_of_peek {cs : List Char} {i : Nat} (h : (peek s es i cs).1 = true) :
    (gettoken s es (peek s es i cs).2).1 ≠ '\x00' := by
  have hne : charAt s es (skipWs s es i) ≠ '\x00' := by
    simp only [peek, decide_eq_true_eq] at h
    exact h.1
  show (gettoken s es (skipWs s es i)).1 ≠ '\x00'
  rw [gettoken_skipWs, gettoken_fst, Ne, tokenAt_fst_eq_nul_iff]
  exact hne

/-- When `peek` saw one of its characters, the `gettoken` after it takes a token and moves on:
the measure of every loop of the parser. -/
theorem lt_of_peek {cs : List Char} {i : Nat} (h : (peek s es i cs).1 = true) :
    i < es ∧ i < (gettoken s es (peek s es i cs).2).2.2.2 := by
  have hadv := @gettoken_advance s es (skipWs s es i) (gettoken_ne_of_peek h)
  have hle := (@skipWs_spec s es i).1
  exact ⟨by omega, by simp only [peek]; omega⟩

/-- Positions stay within the line. -/
theorem gettoken_le {i : Nat} (hi : i ≤ es) : (gettoken s es i).2.2.2 ≤ es := by
  obtain ⟨-, hstop, hp⟩ := @skipWs_spec s es i
  have hp := hp hi
  have hend : (tokenAt s es (skipWs s es i)).2 ≤ es := by
    rcases @tokenAt_cases s es (skipWs s es i) with ⟨-, ht⟩ | ⟨hc, ht⟩ |
        ⟨-, hc, ht⟩ | ⟨hc, -, ht⟩ | ⟨-, -, ht⟩ <;> rw [ht]
    · exact hp
    · have : charAt s es (skipWs s es i) ≠ '\x00' := by intro h0; rw [h0] at hc; simp at hc
      exact lt_of_charAt_ne this
    · exact lt_of_charAt_ne (by rw [hc]; decide)
    · exact lt_of_charAt_ne (by rw [hc]; decide)
    · exact (skipWord_spec _).2.2.1 hp
  exact (skipWs_spec _).2.2 hend

/-- Whether `peek(ps, es, cs)` sees the token: a symbol by its own character (`>` for `>>`); a
word starts with a character outside `symbols`. -/
def Tok.peekIn (cs : List Char) : Tok → Bool
  | .sym c => decide ((if c = '+' then '>' else c) ∈ cs)
  | .word _ _ => false

/-- `peek` for symbols sees the head of the tokens. -/
theorem peek_fst {cs : List Char} (hcs : cs ⊆ symbols) (i : Nat) :
    (peek s es i cs).1 = ((toks s es i).head?.map (Tok.peekIn cs)).getD false := by
  simp only [peek, ne_eq, strchr_eq_none, not_not]
  rcases @tokenAt_cases s es (skipWs s es i) with ⟨h0, ht⟩ | ⟨hc, ht⟩ |
      ⟨hc, -, ht⟩ | ⟨hc, -, ht⟩ | ⟨hsym, h0, ht⟩
  · rw [toks_of_eq (by rw [gettoken_fst, ht]), h0]
    simp
  · have hne : charAt s es (skipWs s es i) ≠ '\x00' := by intro h0; rw [h0] at hc; simp at hc
    have ha : charAt s es (skipWs s es i) ≠ 'a' := by intro h0; rw [h0] at hc; simp at hc
    have hp : charAt s es (skipWs s es i) ≠ '+' := by intro h0; rw [h0] at hc; simp at hc
    rw [toks_of_ne (by rw [gettoken_fst, ht]; exact hne)]
    simp [gettoken_fst, ht, Tok.ofRet, ha, Tok.peekIn, hp, hne]
  · rw [toks_of_ne (by rw [gettoken_fst, ht]; dsimp only; decide)]
    simp [gettoken_fst, ht, Tok.ofRet, Tok.peekIn, hc]
  · rw [toks_of_ne (by rw [gettoken_fst, ht]; dsimp only; decide)]
    simp [gettoken_fst, ht, Tok.ofRet, Tok.peekIn, hc]
  · rw [toks_of_ne (by rw [gettoken_fst, ht]; dsimp only; decide)]
    have hncs : charAt s es (skipWs s es i) ∉ cs := fun h => hsym (hcs h)
    simp [gettoken_fst, ht, Tok.ofRet, Tok.peekIn, hncs]

/-- A word `gettoken` returns is a run of characters outside `whitespace` and `symbols`, ended by
`es` or by a character in one of them. -/
theorem gettoken_word {i : Nat} (h : (gettoken s es i).1 = 'a') :
    (gettoken s es i).2.1 < (gettoken s es i).2.2.1 ∧ (gettoken s es i).2.2.1 ≤ es ∧
      (∀ k, (gettoken s es i).2.1 ≤ k → k < (gettoken s es i).2.2.1 →
        k < es ∧ charAt s es k ∉ whitespace ∧ charAt s es k ∉ symbols) ∧
      ((gettoken s es i).2.2.1 < es →
        charAt s es (gettoken s es i).2.2.1 ∈ whitespace ∨
          charAt s es (gettoken s es i).2.2.1 ∈ symbols) := by
  have hadv := @gettoken_advance s es i (by rw [h]; decide)
  have hq : (gettoken s es i).2.1 = skipWs s es i := rfl
  -- only the word case of the `switch` returns `'a'`
  have hword : (tokenAt s es (skipWs s es i)).2 = skipWord s es (skipWs s es i) := by
    rw [gettoken_fst] at h
    rcases @tokenAt_cases s es (skipWs s es i) with ⟨-, ht⟩ | ⟨hc, ht⟩ |
        ⟨-, -, ht⟩ | ⟨-, -, ht⟩ | ⟨-, -, ht⟩
    · rw [ht] at h
      simp at h
    · rw [ht] at h
      simp only at h
      rw [h] at hc
      simp at hc
    · rw [ht] at h
      simp at h
    · rw [ht] at h
      simp at h
    · rw [ht]
  have heq : (gettoken s es i).2.2.1 = skipWord s es (skipWs s es i) := hword
  obtain ⟨-, hin, hle, hend⟩ := @skipWord_spec s es (skipWs s es i)
  rw [heq, hq]
  rw [heq, hq] at hadv
  refine ⟨hadv.2.2.1, hle (by omega), hin, fun hlt => ?_⟩
  by_contra hn
  rw [not_or] at hn
  exact hend ⟨hlt, hn⟩

theorem charAt_strlen {s : List Char} {i : Nat} (h : i < strlen s) :
    charAt s (strlen s) i ≠ '\x00' := by
  have hmem : (s.takeWhile (· ≠ '\x00'))[i] ∈ s.takeWhile (· ≠ '\x00') := List.getElem_mem h
  have hget : (s.takeWhile (· ≠ '\x00'))[i] = s.getD i '\x00' := by
    have hlt : i < s.length := Nat.lt_of_lt_of_le h (List.takeWhile_prefix _).length_le
    rw [(List.takeWhile_prefix _).getElem h, List.getD_eq_getElem?_getD, List.getElem?_eq_getElem hlt]
    rfl
  rw [charAt, if_pos h, ← hget]
  simpa using List.mem_takeWhile_imp hmem

/-- Before the end of the line, `*p` is the byte of the buffer. -/
theorem getElem?_of_lt_strlen {s : List Char} {i : Nat} (h : i < strlen s) :
    s[i]? = some (charAt s (strlen s) i) := by
  have hlt : i < s.length := Nat.lt_of_lt_of_le h (List.takeWhile_prefix _).length_le
  rw [charAt, if_pos h, List.getD_eq_getElem?_getD, List.getElem?_eq_getElem hlt]
  rfl

/-- The line is used up exactly when no token is left: what `parsecmd`'s leftover check reads. -/
theorem skipWs_eq_iff (hnul : ∀ k < es, charAt s es k ≠ '\x00') {i : Nat} (hi : i ≤ es) :
    skipWs s es i = es ↔ toks s es i = [] := by
  constructor
  · intro hes
    apply toks_of_eq
    rw [gettoken_fst, hes, tokenAt, charAt_of_ge (Nat.le_refl es)]
    rfl
  · intro hnil
    have hret : (gettoken s es i).1 = '\x00' := by
      by_contra hne
      rw [toks_of_ne hne] at hnil
      exact List.cons_ne_nil _ _ hnil
    rw [gettoken_fst] at hret
    have h0 : charAt s es (skipWs s es i) = '\x00' := by
      rcases @tokenAt_cases s es (skipWs s es i) with ⟨h0, -⟩ | ⟨hc, ht⟩ |
          ⟨hc, -, ht⟩ | ⟨hc, -, ht⟩ | ⟨-, h0, ht⟩
      · exact h0
      · rw [ht] at hret
        simp only at hret
        rw [hret] at hc
        simp at hc
      · rw [ht] at hret
        simp at hret
      · rw [ht] at hret
        simp at hret
      · rw [ht] at hret
        simp at hret
    have hge : es ≤ skipWs s es i := Nat.not_lt.mp fun hlt => hnul _ hlt h0
    exact Nat.le_antisymm ((skipWs_spec i).2.2 hi) hge

end Token

end Xv6Sched.Sh
