import Mathlib.Data.List.Basic

/-!
# Xv6Sched.User.Grep — the matcher and the read loop of `user/grep.c`

A C string is the list of its characters before the NUL, so `re[0] == '\0'` is `re = []` and
`*text != '\0'` is `text ≠ []`.

`matchhere` and `matchstar` are the mutually recursive matcher of Kernighan and Pike.  They
terminate because each call either shortens the pattern or keeps it and shortens the text
(`termination_by`).  What they match is given by a declarative reading of the pattern (`items`:
`c*`, `.`, a final `$`, literals) and the language of the items (`Lang`): `matchhere re text` holds
iff a prefix of `text` is in the language, the prefix ending the text when `re` ends in `$`
(`matchhere_iff`), and `match` tries every start unless the pattern begins with `^`.
-/

namespace Xv6Sched.Ulib

/-- `strchr(s, c)` of `user/ulib.c`: the offset of the first `c` in `s`, `none` for the null
pointer. -/
def strchr : List Char → Char → Option Nat
  | [], _ => none
  | x :: s, c => if x = c then some 0 else (strchr s c).map (· + 1)

theorem strchr_eq_none {s : List Char} {c : Char} : strchr s c = none ↔ c ∉ s := by
  induction s with
  | nil => simp [strchr]
  | cons x s ih =>
    unfold strchr
    split_ifs with hx
    · simp [hx]
    · rw [Option.map_eq_none_iff, ih, List.mem_cons, not_or]
      exact ⟨fun h => ⟨fun e => hx e.symm, h⟩, fun h => h.2⟩

/-- A found `c` splits the string into the part before it, free of `c`, and the part after. -/
theorem strchr_eq_some {s : List Char} {c : Char} {q : Nat} (h : strchr s c = some q) :
    q < s.length ∧ s = s.take q ++ c :: s.drop (q + 1) ∧ c ∉ s.take q := by
  induction s generalizing q with
  | nil => simp [strchr] at h
  | cons x s ih =>
    unfold strchr at h
    split_ifs at h with hx
    · obtain rfl := Option.some.inj h
      subst hx
      simp
    · obtain ⟨q', hq', rfl⟩ := Option.map_eq_some_iff.mp h
      obtain ⟨hlt, hs, hc⟩ := ih hq'
      refine ⟨by simp only [List.length_cons]; omega, ?_, ?_⟩
      · rw [List.take_succ_cons, List.drop_succ_cons, List.cons_append, ← hs]
      · rw [List.take_succ_cons, List.mem_cons, not_or]
        exact ⟨fun e => hx e.symm, hc⟩

end Xv6Sched.Ulib

namespace Xv6Sched.Grep

mutual

/-- `matchhere(re, text)`: search for `re` at the beginning of `text`.  The cases are tried in
the order of the code: end of pattern, `c*`, a final `$`, then one character. -/
def matchhere (re text : List Char) : Bool :=
  match re with
  | [] => true
  | c :: '*' :: re' => matchstar c re' text
  | c :: re' =>
    if c = '$' ∧ re' = [] then text.isEmpty
    else
      match text with
      | t :: text' => (c = '.' || c = t) && matchhere re' text'
      | [] => false
termination_by (re.length, 0)

/-- `matchstar(c, re, text)`: search for `c*re` at the beginning of `text`, trying the shortest
run of `c` first. -/
def matchstar (c : Char) (re text : List Char) : Bool :=
  matchhere re text ||
    match text with
    | t :: text' => (t = c || c = '.') && matchstar c re text'
    | [] => false
termination_by (re.length + 1, text.length)

end

/-- The `do ... while(*text++ != '\0')` of `match`: every start, the end of the text included. -/
def matchLoop (re : List Char) : List Char → Bool
  | [] => matchhere re []
  | t :: text => matchhere re (t :: text) || matchLoop re text

/-- `match(re, text)`. -/
def «match» (re text : List Char) : Bool :=
  match re with
  | '^' :: re' => matchhere re' text
  | _ => matchLoop re text

/-! ### The reference semantics -/

/-- One item of a pattern. -/
inductive Item where
  | star (c : Char)
  | any
  | eol
  | lit (c : Char)
  deriving DecidableEq, Repr

/-- The pattern read left to right: a character followed by `*` is a star of it (`.*` of any
character), `.` any one character, `$` as the last character the end of the text, and every other
character (`^`, `$` elsewhere, a `*` that follows no character) itself. -/
def items : List Char → List Item
  | [] => []
  | c :: '*' :: re => .star c :: items re
  | ['$'] => [.eol]
  | '.' :: re => .any :: items re
  | c :: re => .lit c :: items re

/-- `Lang is u`: the items `is` match exactly the string `u`.  The end item matches the empty
string; that the match then ends the text is asked by `MatchesAt`. -/
inductive Lang : List Item → List Char → Prop where
  | nil : Lang [] []
  | eol : Lang [.eol] []
  | any {is : List Item} {u : List Char} (t : Char) : Lang is u → Lang (.any :: is) (t :: u)
  | lit {is : List Item} {u : List Char} (c : Char) : Lang is u → Lang (.lit c :: is) (c :: u)
  | star {is : List Item} {u : List Char} (c : Char) (r : List Char) :
      (∀ t ∈ r, t = c ∨ c = '.') → Lang is u → Lang (.star c :: is) (r ++ u)

/-- `re` matches a substring at the start of `w`: a prefix of `w` is in its language, and it is
all of `w` when `re` ends in `$`. -/
def MatchesAt (re w : List Char) : Prop :=
  ∃ u v, w = u ++ v ∧ Lang (items re) u ∧ (Item.eol ∈ items re → v = [])

/-- The item of a character that `*` does not follow. -/
def oneItem (c : Char) : Item := if c = '.' then .any else .lit c

/-! ### The language, one item at a time -/

section Lang

variable {c : Char} {is : List Item} {re u w : List Char}

theorem lang_nil_iff : Lang [] u ↔ u = [] := by
  constructor
  · intro h
    cases h
    rfl
  · rintro rfl
    exact .nil

theorem lang_eol_iff : Lang [.eol] u ↔ u = [] := by
  constructor
  · intro h
    cases h
    rfl
  · rintro rfl
    exact .eol

theorem lang_oneItem_iff : Lang (oneItem c :: is) u ↔ ∃ t u', u = t :: u' ∧ (c = '.' ∨ c = t) ∧ Lang is u' := by
  unfold oneItem
  split_ifs with hd
  · constructor
    · intro h
      cases h with
      | any t h => exact ⟨t, _, rfl, .inl hd, h⟩
    · rintro ⟨t, u', rfl, -, h⟩
      exact .any t h
  · constructor
    · intro h
      cases h with
      | lit c h => exact ⟨c, _, rfl, .inr rfl, h⟩
    · rintro ⟨t, u', rfl, ht | rfl, h⟩
      · exact absurd ht hd
      · exact .lit c h

theorem lang_star_iff : Lang (.star c :: is) u ↔ ∃ r u', u = r ++ u' ∧ (∀ t ∈ r, t = c ∨ c = '.') ∧ Lang is u' := by
  constructor
  · intro h
    cases h with
    | star c r hr h => exact ⟨r, _, rfl, hr, h⟩
  · rintro ⟨r, u', rfl, hr, h⟩
    exact .star c r hr h

theorem items_one (hs : ∀ r, re = '*' :: r → False) (he : c = '$' → re = [] → False) :
    items (c :: re) = oneItem c :: items re := by
  unfold oneItem
  split_ifs with hd
  · subst hd
    exact items.eq_4 re hs
  · exact items.eq_5 c re hs he hd

theorem matchesAt_nil (w : List Char) : MatchesAt [] w :=
  ⟨[], w, rfl, .nil, fun h => (List.not_mem_nil h).elim⟩

theorem matchesAt_dollar : MatchesAt ['$'] w ↔ w = [] := by
  unfold MatchesAt
  rw [items.eq_3]
  constructor
  · rintro ⟨u, v, rfl, hu, hv⟩
    rw [lang_eol_iff.mp hu, hv (List.mem_singleton_self _)]
    rfl
  · rintro rfl
    exact ⟨[], [], rfl, .eol, fun _ => rfl⟩

/-- `c*` takes a run of characters it admits, and the rest of the pattern matches after it. -/
theorem matchesAt_star :
    MatchesAt (c :: '*' :: re) w ↔ ∃ r w', w = r ++ w' ∧ (∀ t ∈ r, t = c ∨ c = '.') ∧ MatchesAt re w' := by
  unfold MatchesAt
  rw [show items (c :: '*' :: re) = .star c :: items re from rfl]
  simp only [List.mem_cons, reduceCtorEq, false_or, lang_star_iff]
  constructor
  · rintro ⟨u, v, rfl, ⟨r, u', rfl, hr, hu⟩, hv⟩
    exact ⟨r, u' ++ v, List.append_assoc _ _ _, hr, u', v, rfl, hu, hv⟩
  · rintro ⟨r, w', rfl, hr, u', v, rfl, hu, hv⟩
    exact ⟨r ++ u', v, (List.append_assoc _ _ _).symm, ⟨r, u', rfl, hr, hu⟩, hv⟩

/-- A character that `*` does not follow, other than a final `$`, takes the text's first
character. -/
theorem matchesAt_one (hs : ∀ r, re = '*' :: r → False) (he : c = '$' → re = [] → False) :
    MatchesAt (c :: re) w ↔ ∃ t w', w = t :: w' ∧ (c = '.' ∨ c = t) ∧ MatchesAt re w' := by
  unfold MatchesAt
  rw [items_one hs he]
  simp only [lang_oneItem_iff]
  have heol : Item.eol ∈ oneItem c :: items re ↔ Item.eol ∈ items re := by
    unfold oneItem
    split_ifs <;> simp
  rw [heol]
  constructor
  · rintro ⟨u, v, rfl, ⟨t, u', rfl, ht, hu⟩, hv⟩
    exact ⟨t, u' ++ v, rfl, ht, u', v, rfl, hu, hv⟩
  · rintro ⟨t, w', rfl, ht, u', v, rfl, hu, hv⟩
    exact ⟨t :: u', v, rfl, ⟨t, u', rfl, ht, hu⟩, hv⟩

end Lang

/-! ### The matcher decides the language -/

/-- `matchstar` tries every run of admitted characters, shortest first. -/
theorem matchstar_iff (c : Char) (re : List Char) : ∀ text,
    matchstar c re text = true ↔
      ∃ r w, text = r ++ w ∧ (∀ t ∈ r, t = c ∨ c = '.') ∧ matchhere re w = true
  | [] => by
    rw [matchstar, Bool.or_false]
    constructor
    · intro h
      exact ⟨[], [], rfl, fun _ h => (List.not_mem_nil h).elim, h⟩
    · rintro ⟨r, w, he, -, h⟩
      rwa [(List.append_eq_nil_iff.mp he.symm).2] at h
  | t :: text => by
    rw [matchstar]
    simp only [Bool.or_eq_true, Bool.and_eq_true, Bool.or_eq_true, decide_eq_true_eq, matchstar_iff c re text]
    constructor
    · rintro (h | ⟨ht, r, w, rfl, hr, hw⟩)
      · exact ⟨[], t :: text, rfl, fun _ h => (List.not_mem_nil h).elim, h⟩
      · refine ⟨t :: r, w, rfl, ?_, hw⟩
        rintro t' (_ | ⟨_, ht'⟩)
        · exact ht
        · exact hr t' ht'
    · rintro ⟨r, w, he, hr, hw⟩
      cases r with
      | nil =>
        left
        rw [List.nil_append] at he
        rwa [he]
      | cons t' r =>
        right
        obtain ⟨h1, h2⟩ := List.cons.inj he
        refine ⟨?_, r, w, h2, fun t h => hr t (List.mem_cons_of_mem _ h), hw⟩
        rw [h1]
        exact hr t' List.mem_cons_self

/-- The step of `matchhere` on one character, given what it decides for the rest. -/
theorem matchhere_one_iff {c : Char} {re : List Char} (hs : ∀ r, re = '*' :: r → False)
    (he : c = '$' → re = [] → False) (ih : ∀ text, matchhere re text = true ↔ MatchesAt re text)
    (text : List Char) : matchhere (c :: re) text = true ↔ MatchesAt (c :: re) text := by
  rw [matchesAt_one hs he]
  cases text with
  | nil =>
    rw [matchhere.eq_4 c re hs, if_neg (fun h => he h.1 h.2)]
    simp
  | cons t text =>
    rw [matchhere.eq_3 c re t text hs, if_neg (fun h => he h.1 h.2)]
    simp only [Bool.and_eq_true, Bool.or_eq_true, decide_eq_true_eq, ih]
    constructor
    · rintro ⟨ht, hm⟩
      exact ⟨t, text, rfl, ht, hm⟩
    · rintro ⟨t', w', he', ht, hm⟩
      obtain ⟨rfl, rfl⟩ := List.cons.inj he'
      exact ⟨ht, hm⟩

/-- `matchhere re text` holds iff a substring at the start of `text` matches `re`.  The induction
follows the reading of the pattern into items. -/
theorem matchhere_iff (re : List Char) : ∀ text, matchhere re text = true ↔ MatchesAt re text := by
  induction re using items.induct with
  | case1 =>
    intro text
    rw [matchhere.eq_1]
    exact iff_of_true rfl (matchesAt_nil text)
  | case2 c re ih =>
    intro text
    rw [matchhere.eq_2, matchstar_iff, matchesAt_star]
    simp only [ih]
  | case3 =>
    intro text
    rw [matchesAt_dollar]
    cases text with
    | nil => simp [matchhere]
    | cons t text =>
      rw [matchhere.eq_3 '$' [] t text (fun _ h => List.cons_ne_nil _ _ h.symm), if_pos ⟨rfl, rfl⟩]
      simp
  | case4 re hs ih => exact matchhere_one_iff hs (fun h => absurd h (by decide)) ih
  | case5 c re hs he _ ih => exact matchhere_one_iff hs he ih

/-- `match`'s loop tries `matchhere` at every suffix of the text, the empty one included. -/
theorem matchLoop_iff (re : List Char) : ∀ text,
    matchLoop re text = true ↔ ∃ i ≤ text.length, matchhere re (text.drop i) = true
  | [] => by simp [matchLoop]
  | t :: text => by
    rw [matchLoop, Bool.or_eq_true, matchLoop_iff re text]
    constructor
    · rintro (h | ⟨i, hi, h⟩)
      · exact ⟨0, Nat.zero_le _, h⟩
      · exact ⟨i + 1, by simp only [List.length_cons]; omega, h⟩
    · rintro ⟨i, hi, h⟩
      cases i with
      | zero => exact .inl h
      | succ i => exact .inr ⟨i, by simp only [List.length_cons] at hi; omega, h⟩

/-- `match(re, text)` holds iff a substring of `text` matches the rest of the pattern: one at the
start of the text when the pattern begins with `^`, one starting anywhere up to the end
otherwise. -/
theorem match_iff_substring (re text : List Char) :
    «match» re text = true ↔
      if re.head? = some '^' then MatchesAt re.tail text
      else ∃ i ≤ text.length, MatchesAt re (text.drop i) := by
  unfold «match»
  split
  · rw [List.head?_cons, if_pos rfl, matchhere_iff]
    rfl
  · rename_i hne
    have hhead : ¬ re.head? = some '^' := by
      intro h
      cases re with
      | nil => simp at h
      | cons c r =>
        obtain rfl : c = '^' := Option.some.inj h
        exact hne r rfl
    rw [if_neg hhead, matchLoop_iff]
    simp only [matchhere_iff]

/-! ### The read loop -/

/-- The inner loop of `grep` over the bytes from `p` to the end of the buffer: up to each newline
that `strchr` finds, the line is written with its newline when it matches.  The result is what
was written and the bytes after the last newline, which `memmove` carries to the front. -/
def grepLines (pattern p : List Char) : List Char × List Char :=
  match h : Ulib.strchr p '\n' with
  | none => ([], p)
  | some q =>
    let rest := grepLines pattern (p.drop (q + 1))
    ((if «match» pattern (p.take q) then p.take q ++ ['\n'] else []) ++ rest.1, rest.2)
termination_by p.length
decreasing_by
  have := (Ulib.strchr_eq_some h).1
  simp only [List.length_drop]
  omega

/-- What a `read` asking for `n` bytes returns when `rest` is unread: the reader's choice
`rd rest n`, never more than the request or than what is left. -/
def readCount (rd : List Char → Nat → Nat) (rest : List Char) (n : Nat) : Nat :=
  min (rd rest n) (min n rest.length)

/-- The loop `while((n = read(fd, buf+m, sizeof(buf)-m-1)) > 0)` of `grep`: `buf` is `buf[0..m)`,
`input` the unread stream, and the result everything written to fd 1.  After a read of `n > 0`
bytes `m > 0`, so the tail after the last newline is always moved to the front. -/
def grepLoop (pattern : List Char) (rd : List Char → Nat → Nat) (input buf : List Char) : List Char :=
  if h : 0 < readCount rd input (1024 - buf.length - 1) then
    let n := readCount rd input (1024 - buf.length - 1)
    let r := grepLines pattern (buf ++ input.take n)
    r.1 ++ grepLoop pattern rd (input.drop n) r.2
  else []
termination_by input.length
decreasing_by
  unfold readCount at h ⊢
  simp only [List.length_drop]
  omega

/-- `grep(pattern, fd)` on the stream `input`, each read returning what `rd` chooses. -/
def grep (pattern : List Char) (rd : List Char → Nat → Nat) (input : List Char) : List Char :=
  grepLoop pattern rd input []

/-! ### What `grep` should write -/

/-- The newline-terminated lines of `s`: the pieces between newlines but the last one, which is
empty when `s` ends in a newline and an unterminated line otherwise. -/
def lines (s : List Char) : List (List Char) := (s.splitOn '\n').dropLast

/-- The lines of `L` that `match` accepts, each followed by its newline. -/
def written (pattern : List Char) (L : List (List Char)) : List Char :=
  (L.filter («match» pattern)).flatMap (· ++ ['\n'])

/-- What `grep` should write for the stream `s`: its newline-terminated lines that match, in
order. -/
def grepSpec (pattern s : List Char) : List Char := written pattern (lines s)

theorem lines_of_not_mem {s : List Char} (h : '\n' ∉ s) : lines s = [] := by
  rw [lines, List.splitOn_eq_singleton h, List.dropLast_singleton]

theorem lines_line {l z : List Char} (h : '\n' ∉ l) : lines (l ++ '\n' :: z) = l :: lines z := by
  rw [lines, List.splitOn_append_cons_self_of_not_mem h,
    List.dropLast_cons_of_ne_nil (List.splitOn_ne_nil _ _), lines]

theorem written_cons (pattern l : List Char) (L : List (List Char)) :
    written pattern (l :: L) = (if «match» pattern l then l ++ ['\n'] else []) ++ written pattern L := by
  unfold written
  rw [List.filter_cons]
  split_ifs <;> simp

theorem written_append (pattern : List Char) (L L' : List (List Char)) :
    written pattern (L ++ L') = written pattern L ++ written pattern L' := by
  simp [written, List.filter_append, List.flatMap_append]

theorem grepLines_of_not_mem {pattern p : List Char} (h : '\n' ∉ p) : grepLines pattern p = ([], p) := by
  rw [grepLines]
  split
  · rfl
  · rename_i q hq
    rw [Ulib.strchr_eq_none.mpr h] at hq
    simp at hq

theorem grepLines_of_some {pattern p : List Char} {q : Nat} (h : Ulib.strchr p '\n' = some q) :
    grepLines pattern p =
      ((if «match» pattern (p.take q) then p.take q ++ ['\n'] else []) ++ (grepLines pattern (p.drop (q + 1))).1,
        (grepLines pattern (p.drop (q + 1))).2) := by
  rw [grepLines]
  split
  · rename_i hq
    rw [h] at hq
    simp at hq
  · rename_i q' hq
    rw [h] at hq
    cases hq
    rfl

section Loop

variable {pattern : List Char} {rd : List Char → Nat → Nat} {input buf : List Char}

theorem grepLoop_of_pos (h : 0 < readCount rd input (1024 - buf.length - 1)) :
    grepLoop pattern rd input buf =
      (grepLines pattern (buf ++ input.take (readCount rd input (1024 - buf.length - 1)))).1 ++
        grepLoop pattern rd (input.drop (readCount rd input (1024 - buf.length - 1)))
          (grepLines pattern (buf ++ input.take (readCount rd input (1024 - buf.length - 1)))).2 := by
  rw [grepLoop, dif_pos h]

theorem grepLoop_of_zero (h : ¬ 0 < readCount rd input (1024 - buf.length - 1)) :
    grepLoop pattern rd input buf = [] := by
  rw [grepLoop, dif_neg h]

/-- A read never returns more than it asked for. -/
theorem readCount_le (rd : List Char → Nat → Nat) (rest : List Char) (n : Nat) : readCount rd rest n ≤ n := by
  unfold readCount
  omega

end Loop

/-- One pass over the buffer writes its complete lines that match and keeps the rest, which
holds no newline; what follows in the stream is split into lines after it. -/
theorem grepLines_spec (pattern x y : List Char) :
    (grepLines pattern x).1 = written pattern (lines x) ∧
    lines (x ++ y) = lines x ++ lines ((grepLines pattern x).2 ++ y) ∧
    '\n' ∉ (grepLines pattern x).2 ∧ (grepLines pattern x).2.length ≤ x.length := by
  induction x using grepLines.induct pattern with
  | case1 p h =>
    have hp := Ulib.strchr_eq_none.mp h
    rw [grepLines_of_not_mem hp, lines_of_not_mem hp]
    exact ⟨rfl, rfl, hp, Nat.le_refl _⟩
  | case2 p q h ih =>
    obtain ⟨hlt, hs, hc⟩ := Ulib.strchr_eq_some h
    obtain ⟨ih1, ih2, ih3, ih4⟩ := ih
    have hl : lines p = p.take q :: lines (p.drop (q + 1)) := (congrArg lines hs).trans (lines_line hc)
    have hxy : p ++ y = p.take q ++ '\n' :: (p.drop (q + 1) ++ y) := by
      nth_rewrite 1 [hs]
      simp
    rw [grepLines_of_some h]
    dsimp only
    refine ⟨?_, ?_, ih3, ?_⟩
    · rw [hl, written_cons, ih1]
    · rw [hxy, lines_line hc, ih2, hl, List.cons_append]
    · simp only [List.length_drop] at ih4
      omega

/-- While every read that asks for bytes gets at least one as long as the stream lasts, and no
line of the stream is longer than 1022 bytes, `grep`'s loop writes what it should for the
carried bytes and the rest of the stream. -/
theorem grepLoop_eq_spec {pattern : List Char} {rd : List Char → Nat → Nat}
    (hrd : ∀ rest n, 0 < n → rest ≠ [] → 0 < rd rest n) (input buf : List Char) (hbuf : '\n' ∉ buf)
    (hlen : buf.length ≤ 1023) (hlines : ∀ l ∈ lines (buf ++ input), l.length ≤ 1022) :
    grepLoop pattern rd input buf = grepSpec pattern (buf ++ input) := by
  induction input, buf using grepLoop.induct pattern rd with
  | case1 input buf hn n r ih =>
    simp only [n, r] at ih
    rw [grepLoop_of_pos hn]
    generalize hk : readCount rd input (1024 - buf.length - 1) = n at hn ih ⊢
    have hn' : n ≤ 1024 - buf.length - 1 := hk ▸ readCount_le rd input _
    obtain ⟨h1, h2, h3, h4⟩ := grepLines_spec pattern (buf ++ input.take n) (input.drop n)
    rw [List.append_assoc, List.take_append_drop] at h2
    have hr : (grepLines pattern (buf ++ input.take n)).2.length ≤ 1023 := by
      simp only [List.length_append, List.length_take] at h4
      omega
    rw [ih h3 hr (fun l hl => hlines l (h2 ▸ List.mem_append_right _ hl)), grepSpec, grepSpec, h2,
      written_append, ← h1]
  | case2 input buf hn =>
    -- the read got nothing: the stream is over, or the buffer is full with no newline in sight
    have hnl : '\n' ∉ buf ++ input := by
      cases input with
      | nil => simpa using hbuf
      | cons t input =>
        have hk : 1024 - buf.length - 1 = 0 := by
          by_contra hk
          have := hrd (t :: input) (1024 - buf.length - 1) (by omega) (List.cons_ne_nil _ _)
          unfold readCount at hn
          simp only [List.length_cons] at hn
          omega
        cases hq : Ulib.strchr (t :: input) '\n' with
        | none =>
          rw [List.mem_append, not_or]
          exact ⟨hbuf, Ulib.strchr_eq_none.mp hq⟩
        | some q =>
          obtain ⟨-, hs, hc⟩ := Ulib.strchr_eq_some hq
          have hline : buf ++ (t :: input).take q ∈ lines (buf ++ t :: input) := by
            have hsplit := lines_line (z := (t :: input).drop (q + 1))
              (show '\n' ∉ buf ++ (t :: input).take q by simp [hbuf, hc])
            rw [List.append_assoc, ← hs] at hsplit
            rw [hsplit]
            exact List.mem_cons_self
          have := hlines _ hline
          simp only [List.length_append] at this
          omega
    rw [grepLoop_of_zero hn, grepSpec, lines_of_not_mem hnl]
    rfl

/-- While no newline comes within the first 1023 bytes of what is carried and unread, the buffer
only fills: once it holds 1023 bytes the read asks for none, gets `0` and ends the loop, and
nothing has been written. -/
theorem grepLoop_of_no_newline {pattern : List Char} {rd : List Char → Nat → Nat} (input buf : List Char)
    (hlen : buf.length ≤ 1023) (hnl : '\n' ∉ (buf ++ input).take 1023) : grepLoop pattern rd input buf = [] := by
  induction input, buf using grepLoop.induct pattern rd with
  | case1 input buf hn n r ih =>
    simp only [n, r] at ih
    rw [grepLoop_of_pos hn]
    generalize hk : readCount rd input (1024 - buf.length - 1) = n at hn ih ⊢
    have hn' : n ≤ 1024 - buf.length - 1 := hk ▸ readCount_le rd input _
    -- the bytes in the buffer are a prefix of the first 1023
    have hpre : buf ++ input.take n = ((buf ++ input).take 1023).take (buf.length + n) := by
      rw [List.take_take, Nat.min_eq_left (by omega), List.take_length_add_append]
    have hx : '\n' ∉ buf ++ input.take n := fun h => hnl (List.mem_of_mem_take (hpre ▸ h))
    rw [grepLines_of_not_mem hx] at ih ⊢
    rw [List.nil_append]
    apply ih
    · simp only [List.length_append, List.length_take]
      omega
    · rwa [List.append_assoc, List.take_append_drop]
  | case2 input buf hn => exact grepLoop_of_zero hn

/-- A stream whose first line is 1023 `a`s, followed by the line `b`. -/
def longLineInput : List Char := List.replicate 1023 'a' ++ '\n' :: ['b', '\n']

/-- However `read` splits it, `grep b` writes nothing for `longLineInput`, though its second
line matches: the first 1023 bytes fill the buffer without a newline, the next read asks for
`0` bytes, and its `0` ends the loop. -/
theorem grep_misses_line_after_long_line (rd : List Char → Nat → Nat) :
    grep ['b'] rd longLineInput = [] ∧ grepSpec ['b'] longLineInput = ['b', '\n'] := by
  have hrep : '\n' ∉ List.replicate 1023 'a' := fun h => absurd (List.mem_replicate.mp h).2 (by decide)
  have hb : ∀ w, MatchesAt ['b'] w ↔ ∃ t w', w = t :: w' ∧ ('b' = '.' ∨ 'b' = t) ∧ MatchesAt [] w' := fun _ =>
    matchesAt_one (fun _ h => List.cons_ne_nil _ _ h.symm) (fun h _ => absurd h (by decide))
  have hno : «match» ['b'] (List.replicate 1023 'a') = false := by
    rw [Bool.eq_false_iff]
    intro h
    rw [show «match» ['b'] (List.replicate 1023 'a') = matchLoop ['b'] (List.replicate 1023 'a') from rfl,
      matchLoop_iff] at h
    obtain ⟨i, -, h⟩ := h
    obtain ⟨t, w', hw, ht, -⟩ := (hb _).mp ((matchhere_iff _ _).mp h)
    have hta : t ∈ List.replicate 1023 'a' := List.mem_of_mem_drop (hw ▸ List.mem_cons_self)
    obtain ⟨-, rfl⟩ := List.mem_replicate.mp hta
    revert ht
    decide
  have hyes : «match» ['b'] ['b'] = true := by
    rw [show «match» ['b'] ['b'] = matchLoop ['b'] ['b'] from rfl, matchLoop_iff]
    exact ⟨0, Nat.zero_le _, (matchhere_iff _ _).mpr ((hb _).mpr ⟨'b', [], rfl, .inr rfl, matchesAt_nil []⟩)⟩
  constructor
  · apply grepLoop_of_no_newline _ _ (Nat.zero_le _)
    rw [List.nil_append, longLineInput, List.take_left' List.length_replicate]
    exact hrep
  · rw [grepSpec, longLineInput, lines_line hrep, show ['b', '\n'] = ['b'] ++ '\n' :: [] from rfl,
      lines_line (by decide), lines_of_not_mem List.not_mem_nil, written_cons, written_cons, hno, hyes]
    rfl

end Xv6Sched.Grep
