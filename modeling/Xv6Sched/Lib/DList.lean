import Mathlib.Data.List.Induction
import Mathlib.Data.List.Nodup
import Mathlib.Logic.Function.Basic

/-!
# Xv6Sched.Lib.DList — a circular doubly-linked list through a sentinel

The nodes are the sentinel `head` and the elements of a type `α`; the two link fields are
functions `next prev : Node α → Node α`.  `Path f x l y` says that following `f` from `x` visits
the elements of `l` in order and then reaches `y`; `Links next prev l` says that `next` goes
from the head through `l` and back, `prev` through `l` reversed and back, and that no element
comes twice.  The logical list `l` is what the pointers represent.

`unlink` and `insertFront` are the pointer updates C code makes to take a node out and to put
it right after the head: they keep `Links`, for the list without the node (`Links.unlink`) and
with the node in front (`Links.insertFront`).  A scan that follows `next` (or `prev`) from the
head finds what `List.find?` finds in `l` (or in `l.reverse`) once it has more fuel than `l` has
elements (`Path.scan_eq`), and `prev` undoes `next` on every node of the list (`Links.prev_next`).
-/

namespace DList

/-- A node: the sentinel, or an element. -/
inductive Node (α : Type) where
  | head
  | elem (a : α)
  deriving DecidableEq

variable {α : Type}

/-- The first node of `l`, or `y` when `l` is empty. -/
def firstNode (l : List α) (y : Node α) : Node α :=
  match l with
  | [] => y
  | a :: _ => .elem a

/-- The last node of `l`, or `x` when `l` is empty. -/
def lastNode (x : Node α) (l : List α) : Node α :=
  match l.getLast? with
  | none => x
  | some a => .elem a

/-- Following `f` from `x` visits the elements of `l` in order, then reaches `y`. -/
def Path (f : Node α → Node α) (x : Node α) : List α → Node α → Prop
  | [], y => f x = y
  | a :: l, y => f x = .elem a ∧ Path f (.elem a) l y

/-- `next` runs from the head through `l` and back, `prev` the other way. -/
structure Links (next prev : Node α → Node α) (l : List α) : Prop where
  nodup : l.Nodup
  fwd : Path next .head l .head
  bwd : Path prev .head l.reverse .head

/-! ### First and last nodes -/

@[simp] theorem firstNode_nil (y : Node α) : firstNode [] y = y := rfl

@[simp] theorem firstNode_cons (a : α) (l : List α) (y : Node α) : firstNode (a :: l) y = .elem a := rfl

@[simp] theorem lastNode_nil (x : Node α) : lastNode x [] = x := rfl

@[simp] theorem lastNode_concat (x : Node α) (l : List α) (a : α) : lastNode x (l ++ [a]) = .elem a := by
  simp [lastNode]

theorem lastNode_cons (x : Node α) (a : α) (l : List α) : lastNode x (a :: l) = lastNode (.elem a) l := by
  induction l using List.reverseRecOn with
  | nil => rfl
  | append_singleton l b _ => rw [← List.cons_append, lastNode_concat, lastNode_concat]

theorem firstNode_reverse (l : List α) (y : Node α) : firstNode l.reverse y = lastNode y l := by
  induction l using List.reverseRecOn with
  | nil => rfl
  | append_singleton l a _ => simp

theorem lastNode_reverse (x : Node α) (l : List α) : lastNode x l.reverse = firstNode l x := by
  rw [← firstNode_reverse, List.reverse_reverse]

/-- The head and the elements of a list without repeats are distinct nodes. -/
theorem nodup_nodes {l : List α} (h : l.Nodup) : ((Node.head : Node α) :: l.map .elem).Nodup :=
  List.nodup_cons.mpr ⟨by simp, h.map fun _ _ e => Node.elem.inj e⟩

/-! ### Paths -/

variable {f f' : Node α → Node α} {x x' y y' : Node α} {l : List α}

theorem Path.first (h : Path f x l y) : f x = firstNode l y := by
  cases l with
  | nil => exact h
  | cons a l => exact h.1

theorem Path.last (h : Path f x l y) : f (lastNode x l) = y := by
  induction l generalizing x with
  | nil => exact h
  | cons a l ih => rw [lastNode_cons]; exact ih h.2

theorem path_append {l₁ l₂ : List α} :
    Path f x (l₁ ++ l₂) y ↔ Path f x l₁ (firstNode l₂ y) ∧ Path f (lastNode x l₁) l₂ y := by
  induction l₁ generalizing x with
  | nil => cases l₂ <;> simp [Path]
  | cons a l₁ ih => simp only [List.cons_append, Path, ih, lastNode_cons, and_assoc]

/-- A path started from another node, through a function that agrees on the elements of the
path. -/
theorem Path.rebase (h : Path f x l y) (hx : f' x' = firstNode l y)
    (hl : ∀ a ∈ l, f' (.elem a) = f (.elem a)) : Path f' x' l y := by
  induction l generalizing x x' with
  | nil => exact hx
  | cons a l ih =>
    refine ⟨hx, ih h.2 ?_ fun b hb => hl b (List.mem_cons_of_mem a hb)⟩
    rw [hl a List.mem_cons_self]
    exact h.2.first

/-- A path survives a write to a node it does not leave from. -/
theorem Path.update_out (h : Path f x l y) {z v : Node α} [DecidableEq α] (hx : z ≠ x)
    (hl : ∀ b ∈ l, z ≠ .elem b) : Path (Function.update f z v) x l y :=
  h.rebase (by rw [Function.update_of_ne hx.symm]; exact h.first)
    fun b hb => Function.update_of_ne (hl b hb).symm _ _

/-- Redirecting the last node of a path whose nodes are distinct. -/
theorem Path.retarget [DecidableEq α] (h : Path f x l y) (hnd : (x :: l.map .elem).Nodup) :
    Path (Function.update f (lastNode x l) y') x l y' := by
  induction l generalizing x with
  | nil => exact Function.update_self _ _ _
  | cons a l ih =>
    have hx : x ≠ lastNode x (a :: l) := by
      rw [lastNode_cons]
      cases l using List.reverseRecOn with
      | nil => exact fun e => (List.nodup_cons.mp hnd).1 (e ▸ List.mem_singleton_self _)
      | append_singleton l b _ =>
        rw [lastNode_concat]
        exact fun e => (List.nodup_cons.mp hnd).1 (e ▸ by simp)
    refine ⟨by rw [Function.update_of_ne hx]; exact h.1, ?_⟩
    rw [lastNode_cons]
    exact ih h.2 (List.nodup_cons.mp hnd).2

/-! ### Walking the list -/

/-- Two paths through `l` from the head back to it, one each way, undo each other on every node
of the list. -/
theorem inverse_of_paths {g : Node α → Node α} (hf : Path f .head l .head) (hg : Path g .head l.reverse .head)
    {z : Node α} (hz : z = .head ∨ ∃ a ∈ l, z = .elem a) : g (f z) = z := by
  rcases hz with rfl | ⟨a, ha, rfl⟩
  · rw [hf.first, ← lastNode_reverse]
    exact hg.last
  · obtain ⟨l₁, l₂, rfl⟩ := List.append_of_mem ha
    rw [(path_append.mp hf).2.2.first]
    rw [List.reverse_append, List.reverse_cons, List.append_assoc, List.singleton_append] at hg
    rw [← lastNode_reverse]
    exact (path_append.mp hg).1.last

/-- `prev` undoes `next`, and `next` undoes `prev`, on the head and every element of the list. -/
theorem Links.prev_next {next prev : Node α → Node α} {l : List α} (h : Links next prev l)
    {z : Node α} (hz : z = .head ∨ ∃ a ∈ l, z = .elem a) : prev (next z) = z ∧ next (prev z) = z := by
  refine ⟨inverse_of_paths h.fwd h.bwd hz, inverse_of_paths h.bwd ?_ ?_⟩
  · rw [List.reverse_reverse]
    exact h.fwd
  · rcases hz with rfl | ⟨a, ha, rfl⟩
    · exact Or.inl rfl
    · exact Or.inr ⟨a, List.mem_reverse.mpr ha, rfl⟩

/-- `for(b = start; b != &head; b = f(b)) if(p(b)) return b;` with fuel: the first element that
satisfies `p`, or `none` once the head comes. -/
def scan (f : Node α → Node α) (p : α → Bool) : Nat → Node α → Option α
  | 0, _ => none
  | _ + 1, .head => none
  | k + 1, .elem a => if p a then some a else scan f p k (f (.elem a))

/-- With more fuel than the list has elements, a scan from the head finds what `List.find?`
finds. -/
theorem Path.scan_eq (h : Path f x l .head) {k : Nat} (hk : l.length < k) (p : α → Bool) :
    scan f p k (f x) = l.find? p := by
  induction l generalizing x k with
  | nil =>
    obtain ⟨k, rfl⟩ : ∃ k', k = k' + 1 := ⟨k - 1, by simp at hk; omega⟩
    rw [show f x = .head from h]
    rfl
  | cons a l ih =>
    obtain ⟨k, rfl⟩ : ∃ k', k = k' + 1 := ⟨k - 1, by simp at hk; omega⟩
    rw [h.1, scan, List.find?_cons]
    cases hp : p a with
    | true => rfl
    | false =>
      simp only [Bool.false_eq_true, if_false]
      exact ih h.2 (by simp at hk; omega)

/-- The empty list: the head linked to itself both ways. -/
theorem links_nil {next prev : Node α → Node α} (hn : next .head = .head) (hp : prev .head = .head) :
    Links next prev ([] : List α) :=
  ⟨List.nodup_nil, hn, hp⟩

/-! ### Taking a node out, putting it in front -/

/-- `x->next->prev = x->prev; x->prev->next = x->next;` -/
def unlink [DecidableEq α] (next prev : Node α → Node α) (x : Node α) :
    (Node α → Node α) × (Node α → Node α) :=
  let prev' := Function.update prev (next x) (prev x)
  let next' := Function.update next (prev' x) (next x)
  (next', prev')

/-- `x->next = head.next; x->prev = &head; head.next->prev = x; head.next = x;` -/
def insertFront [DecidableEq α] (next prev : Node α → Node α) (x : Node α) :
    (Node α → Node α) × (Node α → Node α) :=
  let next₁ := Function.update next x (next .head)
  let prev₁ := Function.update prev x .head
  let prev₂ := Function.update prev₁ (next₁ .head) x
  let next₂ := Function.update next₁ .head x
  (next₂, prev₂)

variable [DecidableEq α]

/-- Splicing `a` out of a path: the node before it now leads to the node after it. -/
theorem Path.splice {l₁ l₂ : List α} {a : α} (h : Path f x (l₁ ++ a :: l₂) y)
    (hnd : (x :: (l₁ ++ a :: l₂).map .elem).Nodup) :
    Path (Function.update f (lastNode x l₁) (firstNode l₂ y)) x (l₁ ++ l₂) y := by
  obtain ⟨h₁, h₂⟩ := path_append.mp h
  have hnd₁ : (x :: l₁.map .elem).Nodup :=
    (List.Sublist.nodup (by simp) hnd)
  -- the node before `a` is `x` or an element of `l₁`, none of which is in `l₂`
  have hout : ∀ b ∈ l₂, lastNode x l₁ ≠ .elem b := by
    intro b hb e
    have hx : lastNode x l₁ ∈ x :: l₁.map .elem := by
      cases l₁ using List.reverseRecOn with
      | nil => exact List.mem_cons_self
      | append_singleton l c _ => simp
    rw [e] at hx
    simp only [List.map_append, List.map_cons] at hnd
    rw [← List.cons_append, List.nodup_append] at hnd
    exact hnd.2.2 _ hx _ (by simp [hb]) rfl
  refine path_append.mpr ⟨h₁.retarget hnd₁, h₂.2.rebase ?_ fun b hb => Function.update_of_ne (hout b hb).symm _ _⟩
  exact Function.update_self _ _ _

/-- `unlink` takes an element out of the list. -/
theorem Links.unlink {next prev : Node α → Node α} {l : List α} {a : α} (h : Links next prev l)
    (ha : a ∈ l) : Links (DList.unlink next prev (.elem a)).1 (DList.unlink next prev (.elem a)).2 (l.erase a) := by
  obtain ⟨l₁, l₂, rfl⟩ := List.append_of_mem ha
  have hnd := h.nodup
  have ha₁ : a ∉ l₁ := fun h₁ => by
    rw [List.nodup_append] at hnd; exact hnd.2.2 a h₁ a List.mem_cons_self rfl
  have ha₂ : a ∉ l₂ := (List.nodup_cons.mp (List.nodup_append.mp hnd).2.1).1
  -- the neighbours of `a`, read off the two paths
  have hfwd := h.fwd
  have hbwd := h.bwd
  rw [List.reverse_append, List.reverse_cons, List.append_assoc, List.singleton_append] at hbwd
  have hnext : next (.elem a) = firstNode l₂ .head := (path_append.mp hfwd).2.2.first
  have hprev : prev (.elem a) = lastNode .head l₁ := by
    rw [(path_append.mp hbwd).2.2.first, firstNode_reverse]
  have hne : firstNode l₂ (.head : Node α) ≠ .elem a := by
    cases l₂ with
    | nil => simp
    | cons b l₂ => exact fun e => ha₂ (Node.elem.inj e ▸ List.mem_cons_self)
  rw [List.erase_append_right _ ha₁, List.erase_cons_head]
  refine ⟨(List.nodup_append.mpr ⟨(List.nodup_append.mp hnd).1, (List.nodup_cons.mp (List.nodup_append.mp hnd).2.1).2,
    fun x hx y hy => (List.nodup_append.mp hnd).2.2 x hx y (List.mem_cons_of_mem a hy)⟩), ?_, ?_⟩
  · -- forward: the node before `a` leads to the node after it
    show Path (Function.update next (Function.update prev (next (.elem a)) (prev (.elem a)) (.elem a))
      (next (.elem a))) .head (l₁ ++ l₂) .head
    rw [Function.update_of_ne (by rw [hnext]; exact hne.symm), hprev, hnext]
    exact hfwd.splice (nodup_nodes hnd)
  · -- backward: the node after `a` leads to the node before it
    show Path (Function.update prev (next (.elem a)) (prev (.elem a))) .head (l₁ ++ l₂).reverse .head
    rw [hnext, hprev, List.reverse_append]
    have hnd' : (l₂.reverse ++ a :: l₁.reverse).Nodup := by
      rw [← List.singleton_append, ← List.append_assoc, ← List.reverse_cons, ← List.reverse_append]
      exact List.nodup_reverse.mpr hnd
    have hs := hbwd.splice (nodup_nodes hnd')
    rwa [lastNode_reverse, firstNode_reverse] at hs

/-- `insertFront` puts an element that is not in the list in front of it. -/
theorem Links.insertFront {next prev : Node α → Node α} {l : List α} {a : α} (h : Links next prev l)
    (ha : a ∉ l) :
    Links (DList.insertFront next prev (.elem a)).1 (DList.insertFront next prev (.elem a)).2 (a :: l) := by
  have hne : ∀ b ∈ l, (Node.elem b : Node α) ≠ .elem a := fun b hb e => ha (Node.elem.inj e ▸ hb)
  -- the node that followed the head, and is now after `a`
  have hF : firstNode l (.head : Node α) ≠ .elem a := by
    cases l with
    | nil => simp
    | cons b l => exact hne b List.mem_cons_self
  refine ⟨List.nodup_cons.mpr ⟨ha, h.nodup⟩, ?_, ?_⟩
  · -- forward: head, then `a`, then what followed the head
    refine ⟨by simp only [DList.insertFront, Function.update_self], h.fwd.rebase ?_ fun b hb => ?_⟩
    · simp only [DList.insertFront]
      rw [Function.update_of_ne (by simp), Function.update_self]
      exact h.fwd.first
    · simp only [DList.insertFront]
      rw [Function.update_of_ne (by simp), Function.update_of_ne (hne b hb)]
  · -- backward: the old first node now leads back to `a`, and `a` to the head
    have hnd := nodup_nodes (List.nodup_reverse.mpr h.nodup)
    have hprev : (DList.insertFront next prev (.elem a)).2 =
        Function.update (Function.update prev (firstNode l .head) (.elem a)) (.elem a) .head := by
      simp only [DList.insertFront]
      rw [Function.update_of_ne (by simp), h.fwd.first, Function.update_comm hF]
    rw [hprev, List.reverse_cons, path_append, lastNode_reverse]
    refine ⟨?_, ⟨?_, ?_⟩⟩
    · have hl : Path (Function.update prev (lastNode .head l.reverse) (.elem a)) .head l.reverse (.elem a) :=
        h.bwd.retarget hnd
      rw [lastNode_reverse] at hl
      exact hl.update_out (by simp) fun b hb => (hne b (List.mem_reverse.mp hb)).symm
    · rw [Function.update_of_ne hF, Function.update_self]
    · exact Function.update_self _ _ _

/-- Taking an element out and putting it in front: what `brelse` does to a buffer. -/
theorem Links.moveFront {next prev : Node α → Node α} {l : List α} {a : α} (h : Links next prev l)
    (ha : a ∈ l) :
    Links (DList.insertFront (DList.unlink next prev (.elem a)).1 (DList.unlink next prev (.elem a)).2 (.elem a)).1
      (DList.insertFront (DList.unlink next prev (.elem a)).1 (DList.unlink next prev (.elem a)).2 (.elem a)).2
      (a :: l.erase a) :=
  (h.unlink ha).insertFront (List.Nodup.not_mem_erase h.nodup)

/-- Putting the elements of `l` in front one after the other, as a loop over `l` does: the last
one ends up first. -/
theorem Links.foldl_insertFront : ∀ (l : List α) {acc : List α} {next prev : Node α → Node α},
    Links next prev acc → (l.reverse ++ acc).Nodup →
      Links (l.foldl (fun nx a => DList.insertFront nx.1 nx.2 (.elem a)) (next, prev)).1
        (l.foldl (fun nx a => DList.insertFront nx.1 nx.2 (.elem a)) (next, prev)).2 (l.reverse ++ acc)
  | [], _, _, _, h, _ => h
  | a :: l, acc, next, prev, h, hnd => by
    rw [List.reverse_cons, List.append_assoc, List.singleton_append] at hnd ⊢
    have ha : a ∉ acc := (List.nodup_cons.mp (List.nodup_append.mp hnd).2.1).1
    exact Links.foldl_insertFront l (h.insertFront ha) hnd

end DList
