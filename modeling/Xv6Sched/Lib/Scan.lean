import Mathlib.Algebra.BigOperators.Group.Finset.Piecewise
import Mathlib.Data.List.FinRange

/-!
# Xv6Sched.Lib.Scan — `for` loops with an early exit over a fixed-size array

`firstFin p`: the loop `for(i = 0; i < n; i++) if(p(i)) break;` — the least index satisfying
`p`, or `none` when the loop runs to the end.  `firstFrom r p`: the same loop started at `r`
and wrapping around (`i = (i + 1) % n`), which is how a round-robin pointer is advanced.
The lemmas characterise both exactly: what was found satisfies `p`, everything passed over
does not, and `none` means no index does.

`foldlM_inv`: a loop whose body may panic runs to its end when the body keeps an invariant
and does not panic from a state satisfying it; `foldlM_replicate_inv` is the same rule for `n`
passes of one body, the invariant indexed by the passes made.  `foldlM_rel`: what each pass does
to the state (a preorder), the whole loop does.

`foldl_choice`: a scan that keeps a candidate in an accumulator (a running minimum) ends with a
candidate satisfying `P` when each step either keeps the candidate or takes the element it
visits, and then only one satisfying `P`.

`firstMin_scan`: the scan that keeps the first element of least key seen so far, replacing it
only by a strictly smaller one, ends with the first element of least key overall.

`card_update_add`: how many entries of a table satisfy `P` after one entry is overwritten, the
rule behind every reference count that counts the slots holding a value.
-/

namespace Scan

variable {n : Nat}

/-- The least index satisfying `p`. -/
def firstFin (p : Fin n → Bool) : Option (Fin n) := (List.finRange n).find? p

theorem firstFin_eq_none {p : Fin n → Bool} : firstFin p = none ↔ ∀ i, p i = false := by
  simp [firstFin, List.find?_eq_none]

theorem firstFin_spec {p : Fin n → Bool} {i : Fin n} (h : firstFin p = some i) : p i = true :=
  List.find?_some h

/-- Every index the loop passed over fails the test. -/
theorem firstFin_min {p : Fin n → Bool} {i : Fin n} (h : firstFin p = some i) :
    ∀ j, j < i → p j = false := by
  obtain ⟨-, k, hk, hki, hmin⟩ := List.find?_eq_some_iff_getElem.mp h
  intro j hj
  have hk' : k < n := by simpa using hk
  have hik : (i : Nat) = k := by rw [← hki, List.getElem_finRange]; rfl
  have hj' : (j : Nat) < k := by rw [← hik]; exact hj
  have := hmin j hj'
  rw [List.getElem_finRange] at this
  simpa using this

theorem firstFin_eq_some {p : Fin n → Bool} {i : Fin n} :
    firstFin p = some i ↔ p i = true ∧ ∀ j, j < i → p j = false := by
  refine ⟨fun h => ⟨firstFin_spec h, firstFin_min h⟩, fun ⟨hi, hmin⟩ => ?_⟩
  cases h : firstFin p with
  | none => simp [firstFin_eq_none.mp h i] at hi
  | some j =>
    have hj := firstFin_spec h
    rcases lt_trichotomy j i with hlt | rfl | hgt
    · simp [hmin j hlt] at hj
    · rfl
    · simp [firstFin_min h i hgt] at hi

theorem firstFin_isSome {p : Fin n → Bool} {i : Fin n} (hi : p i = true) :
    ∃ j, firstFin p = some j := by
  cases h : firstFin p with
  | none => simp [firstFin_eq_none.mp h i] at hi
  | some j => exact ⟨j, rfl⟩

/-- The loop from `r` around the array: indices `r % n, (r+1) % n, …`, each once. -/
def firstFrom (r : Nat) (p : Fin n → Bool) : Option (Fin n) :=
  ((List.finRange n).map fun d : Fin n => (⟨(r + d) % n, Nat.mod_lt _ (Nat.pos_of_ne_zero
    (fun h => (Nat.not_lt_zero d (h ▸ d.isLt))))⟩ : Fin n)).find? p

theorem firstFrom_spec {r : Nat} {p : Fin n → Bool} {i : Fin n} (h : firstFrom r p = some i) :
    p i = true :=
  List.find?_some h

theorem firstFrom_eq_none {r : Nat} {p : Fin n → Bool} :
    firstFrom r p = none ↔ ∀ i, p i = false := by
  unfold firstFrom
  rw [List.find?_eq_none]
  constructor
  · intro h i
    -- `i` is visited at offset `(i + n - r % n) % n`
    have hn : 0 < n := Nat.lt_of_le_of_lt (Nat.zero_le _) i.isLt
    let d : Fin n := ⟨(i + n - r % n) % n, Nat.mod_lt _ hn⟩
    have hd : (⟨(r + d) % n, Nat.mod_lt _ hn⟩ : Fin n) = i := by
      apply Fin.ext
      show (r + (i + n - r % n) % n) % n = i
      have hr : r % n < n := Nat.mod_lt _ hn
      have e : r + (i + n - r % n) = i + n * (r / n + 1) := by
        have h1 := Nat.mod_add_div r n
        rw [Nat.mul_add, Nat.mul_one]
        generalize n * (r / n) = q at h1 ⊢
        omega
      rw [Nat.add_mod_mod, e, Nat.add_mul_mod_self_left, Nat.mod_eq_of_lt i.isLt]
    have := h _ (List.mem_map.mpr ⟨d, List.mem_finRange d, rfl⟩)
    rw [hd] at this
    simpa using this
  · intro h x _ hx
    rw [h x] at hx
    exact Bool.false_ne_true hx

/-- **Loop rule** for a loop whose body may panic (`none`): when the body, from every state
satisfying `P`, succeeds in a state satisfying `P`, the loop succeeds and ends in one. -/
theorem foldlM_inv {α β : Type} (P : β → Prop) {f : β → α → Option β} {l : List α}
    (hf : ∀ b, ∀ a ∈ l, P b → ∃ b', f b a = some b' ∧ P b') :
    ∀ {b : β}, P b → ∃ b', l.foldlM f b = some b' ∧ P b' := by
  induction l with
  | nil => intro b hb; exact ⟨b, rfl, hb⟩
  | cons a l ih =>
    intro b hb
    obtain ⟨b1, h1, hP1⟩ := hf b a List.mem_cons_self hb
    obtain ⟨b2, h2, hP2⟩ := ih (fun b a' ha' => hf b a' (List.mem_cons_of_mem a ha')) hP1
    refine ⟨b2, ?_, hP2⟩
    rw [List.foldlM_cons, h1]
    exact h2

/-- **Loop rule** for what a loop does, not whether it ends: a reflexive and transitive relation
that every pass makes between its state and the next holds between the loop's start and end. -/
theorem foldlM_rel {α β : Type} (R : β → β → Prop) (hrefl : ∀ b, R b b)
    (htrans : ∀ {a b c}, R a b → R b c → R a c) {f : β → α → Option β}
    (hf : ∀ b a b', f b a = some b' → R b b') :
    ∀ {l : List α} {b b' : β}, l.foldlM f b = some b' → R b b'
  | [], b, b', h => by
    cases h
    exact hrefl b
  | a :: l, b, b', h => by
    rw [List.foldlM_cons] at h
    obtain ⟨b1, h1, h2⟩ := Option.bind_eq_some_iff.mp h
    exact htrans (hf b a b1 h1) (foldlM_rel R hrefl htrans hf h2)

/-- **Loop rule** for `n` passes of one body, with an invariant indexed by the passes made. -/
theorem foldlM_replicate_inv {α β : Type} (P : Nat → β → Prop) {f : β → α → Option β} {a : α} :
    ∀ {n : Nat}, (∀ k b, k < n → P k b → ∃ b', f b a = some b' ∧ P (k + 1) b') →
      ∀ {b : β}, P 0 b → ∃ b', (List.replicate n a).foldlM f b = some b' ∧ P n b' := by
  intro n
  induction n generalizing P with
  | zero => intro _ b hb; exact ⟨b, rfl, hb⟩
  | succ n ih =>
    intro hf b hb
    obtain ⟨b1, h1, hP1⟩ := hf 0 b (Nat.succ_pos n) hb
    -- the remaining `n` passes, with the invariant shifted by the one made
    obtain ⟨b2, h2, hP2⟩ := ih (fun k => P (k + 1))
      (fun k b hk hP => hf (k + 1) b (Nat.succ_lt_succ hk) hP) hP1
    refine ⟨b2, ?_, hP2⟩
    rw [List.replicate_succ, List.foldlM_cons, h1]
    exact h2

/-- **Loop rule** for a loop over the list `l`, with an invariant indexed by the passes made:
pass `k` runs the body on `l[k]`. -/
theorem foldlM_getElem_inv {α β : Type} (P : Nat → β → Prop) {f : β → α → Option β} :
    ∀ {l : List α}, (∀ k b (hk : k < l.length), P k b → ∃ b', f b l[k] = some b' ∧ P (k + 1) b') →
      ∀ {b : β}, P 0 b → ∃ b', l.foldlM f b = some b' ∧ P l.length b' := by
  intro l
  induction l generalizing P with
  | nil => intro _ b hb; exact ⟨b, rfl, hb⟩
  | cons a l ih =>
    intro hf b hb
    obtain ⟨b1, h1, hP1⟩ := hf 0 b (Nat.succ_pos _) hb
    -- the passes over `l`, with the invariant shifted by the one made
    obtain ⟨b2, h2, hP2⟩ := ih (fun k => P (k + 1))
      (fun k b hk hP => hf (k + 1) b (Nat.succ_lt_succ hk) hP) hP1
    refine ⟨b2, ?_, hP2⟩
    rw [List.foldlM_cons, show f b a = some b1 from h1]
    exact h2

/-- A left fold that keeps a candidate `get acc`: if each step keeps it or replaces it by the
visited element, which then satisfies `P`, the final candidate satisfies `P`. -/
theorem foldl_choice {α β : Type} (get : β → Option α) (P : α → Prop) (f : β → α → β)
    (hf : ∀ b a, get (f b a) = get b ∨ (get (f b a) = some a ∧ P a)) :
    ∀ (l : List α) (b : β), (∀ x, get b = some x → P x) →
      ∀ x, get (l.foldl f b) = some x → P x := by
  intro l
  induction l with
  | nil => intro b hb; exact hb
  | cons a l ih =>
    intro b hb
    refine ih (f b a) ?_
    intro x hx
    rcases hf b a with h | ⟨h, hP⟩
    · exact hb x (h ▸ hx)
    · rw [h] at hx
      exact Option.some.inj hx ▸ hP

/-! ### The running minimum -/

section Min

variable {α β : Type} [LinearOrder α] [LinearOrder β] (P : α → Bool) (key : α → β)

/-- One pass of a scan for the first element of least key among those satisfying `P`: the visited
element replaces the candidate only when its key is strictly below the candidate's. -/
def minStep (acc : Option α) (a : α) : Option α :=
  if P a then
    match acc with
    | none => some a
    | some b => if key a < key b then some a else acc
  else acc

/-- What such a scan over `l` has found: nothing when no element satisfies `P`; otherwise an
element satisfying `P` of least key, whose key is below that of every element before it. -/
def FirstMin (l : List α) : Option α → Prop
  | none => ∀ a ∈ l, P a = false
  | some b => b ∈ l ∧ P b = true ∧ (∀ a ∈ l, P a = true → key b ≤ key a) ∧
      ∀ a ∈ l, a < b → P a = true → key b < key a

variable {P key}

/-- The candidate stays when the visited element, after every earlier one, is not below it. -/
theorem FirstMin.keep {l : List α} {b x : α} (h : FirstMin P key l (some b)) (hx : ∀ a ∈ l, a < x)
    (hb : P x = true → key b ≤ key x) : FirstMin P key (l ++ [x]) (some b) := by
  obtain ⟨hbl, hPb, hle, hlt⟩ := h
  have hbx : b < x := hx b hbl
  refine ⟨List.mem_append_left _ hbl, hPb, fun a ha hPa => ?_, fun a ha hab hPa => ?_⟩
  · rcases List.mem_append.mp ha with ha | ha
    · exact hle a ha hPa
    · rw [List.mem_singleton.mp ha] at hPa ⊢
      exact hb hPa
  · rcases List.mem_append.mp ha with ha | ha
    · exact hlt a ha hab hPa
    · rw [List.mem_singleton.mp ha] at hab
      exact absurd (hab.trans hbx) (lt_irrefl x)

/-- The visited element becomes the candidate when its key is below every earlier one's. -/
theorem FirstMin.take {l : List α} {x : α} (hP : P x = true)
    (hlt : ∀ a ∈ l, P a = true → key x < key a) : FirstMin P key (l ++ [x]) (some x) := by
  refine ⟨List.mem_append_right _ (List.mem_singleton_self x), hP, fun a ha hPa => ?_,
    fun a ha hax hPa => ?_⟩
  · rcases List.mem_append.mp ha with ha | ha
    · exact (hlt a ha hPa).le
    · rw [List.mem_singleton.mp ha]
  · rcases List.mem_append.mp ha with ha | ha
    · exact hlt a ha hPa
    · rw [List.mem_singleton.mp ha] at hax
      exact absurd hax (lt_irrefl x)

/-- One pass keeps `FirstMin` when the elements come in increasing order. -/
theorem FirstMin.minStep {l : List α} {acc : Option α} (h : FirstMin P key l acc) {x : α}
    (hx : ∀ a ∈ l, a < x) : FirstMin P key (l ++ [x]) (minStep P key acc x) := by
  unfold Scan.minStep
  by_cases hP : P x = true
  · rw [if_pos hP]
    cases acc with
    | none => exact FirstMin.take hP fun a ha hPa => absurd hPa (by simp [h a ha])
    | some b =>
      dsimp only
      split_ifs with hk
      · exact FirstMin.take hP fun a ha hPa => lt_of_lt_of_le hk (h.2.2.1 a ha hPa)
      · exact h.keep hx fun _ => not_lt.mp hk
  · rw [if_neg hP]
    cases acc with
    | none =>
      intro a ha
      rcases List.mem_append.mp ha with ha | ha
      · exact h a ha
      · rw [List.mem_singleton.mp ha]
        exact Bool.eq_false_iff.mpr hP
    | some b => exact h.keep hx fun h' => absurd h' hP

/-- **Running minimum.** Over an increasing list, the scan finds the first element of least key
among those satisfying `P`, or nothing when none does. -/
theorem firstMin_foldl : ∀ {l l' : List α} {acc : Option α}, (l ++ l').Pairwise (· < ·) →
    FirstMin P key l acc → FirstMin P key (l ++ l') (l'.foldl (minStep P key) acc)
  | l, [], acc, _, h => by simpa using h
  | l, x :: l', acc, hs, h => by
    have hx : ∀ a ∈ l, a < x := fun a ha => (List.pairwise_append.mp hs).2.2 a ha x List.mem_cons_self
    have hs' : (l ++ [x] ++ l').Pairwise (· < ·) := by rwa [List.append_assoc]
    rw [List.foldl_cons, List.append_cons]
    exact firstMin_foldl hs' (h.minStep hx)

theorem firstMin_scan {l : List α} (hs : l.Pairwise (· < ·)) :
    FirstMin P key l (l.foldl (minStep P key) none) :=
  firstMin_foldl (l := []) hs fun _ ha => absurd ha List.not_mem_nil

end Min

/-! ### Counting the entries of a table -/

section Count

variable {ι β M : Type} [Fintype ι] [DecidableEq ι]

/-- A sum over a table after one entry is overwritten. -/
theorem sum_update_add [AddCommMonoid M] (g : ι → β) (F : β → M) (j : ι) (v : β) :
    (∑ i, F (Function.update g j v i)) + F (g j) = (∑ i, F (g i)) + F v := by
  have h1 := Finset.sum_update_of_mem (Finset.mem_univ j) (fun i => F (g i)) (F v)
  have h2 := Finset.add_sum_erase Finset.univ (fun i => F (g i)) (Finset.mem_univ j)
  have h3 : (fun i => F (Function.update g j v i)) = Function.update (fun i => F (g i)) j (F v) := by
    funext i
    exact Function.apply_update (fun _ => F) g j v i
  rw [h3, h1, ← h2, Finset.sdiff_singleton_eq_erase]
  ac_rfl

/-- The entries satisfying `P` after one entry is overwritten: the old entry's share goes, the
new one's comes. -/
theorem card_update_add (g : ι → β) (P : β → Prop) [DecidablePred P] (j : ι) (v : β) :
    (Finset.univ.filter fun i => P (Function.update g j v i)).card + (if P (g j) then 1 else 0) =
      (Finset.univ.filter fun i => P (g i)).card + (if P v then 1 else 0) := by
  rw [Finset.card_filter, Finset.card_filter]
  exact sum_update_add g (fun b => if P b then 1 else 0) j v

end Count

end Scan
