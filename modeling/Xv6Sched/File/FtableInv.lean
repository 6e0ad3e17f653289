import Xv6Sched.File.Ftable

/-!
# Xv6Sched.File.FtableInv — every file reference counted, every pipe and inode released once

`FtInv s loc` is the invariant of the file table, taken at every point of a system call: `loc`
lists the references the call holds in its local variables (`f` after `filealloc`, the two
ends after `pipealloc`).  Every entry's `ref` is the number of descriptor slots holding it plus
its local references; an entry with `ref = 0` is `FD_NONE`; a process that is not live has no
descriptors; the pipes agree with the entries (`PipesOk`); and every inode reference `sys_open`
put into a file is still held by an open entry or was given back by one `iput`.

Between system calls `loc` is empty (`FtOk`).  Each of `filealloc`, `fdalloc`, clearing a
descriptor, `filedup` and `fileclose` moves one reference between the slots and `loc`
(`FtInv.filealloc` … `FtInv.fileclose`), and each system call is a chain of them, its error
paths included.  So every reachable state is `FtOk` (`FileReachable.ftOk`), and no call panics.
-/

namespace Xv6Sched

open Ftable

/-- The descriptor slots `(p, fd)` holding entry `f`. -/
def slots (ofile : Fin NPROC → Fin NOFILE → Option (Fin NFILE)) (f : Fin NFILE) : Nat :=
  (Finset.univ.filter fun x : Fin NPROC × Fin NOFILE => Function.uncurry ofile x = some f).card

/-- The pipe end an open entry is: its pipe, and whether it is the write end. -/
def File.endOf (x : File) : Option (Nat × Bool) :=
  if 0 < x.ref ∧ x.type = .pipe then some (x.pipe, x.writable) else none

/-- The inode an open `FD_INODE` or `FD_DEVICE` entry holds a reference to. -/
def File.heldIp (x : File) : Option Nat :=
  if 0 < x.ref ∧ (x.type = .inode ∨ x.type = .device) then some x.ip else none

/-- The references to inode `ip` that the open entries of `file` hold. -/
def held (file : Fin NFILE → File) (ip : Nat) : Nat :=
  (Finset.univ.filter fun f => (file f).heldIp = some ip).card

/-- Whether end `w` of a pipe is open: the write end when `w`. -/
def Pipe.isOpen (pi : Pipe) (w : Bool) : Bool := if w then pi.writeopen else pi.readopen

/-! ### The views of an entry -/

section Views

variable {x : File}

theorem File.endOf_eq_some {pg : Nat} {w : Bool} :
    x.endOf = some (pg, w) ↔ 0 < x.ref ∧ x.type = .pipe ∧ x.pipe = pg ∧ x.writable = w := by
  unfold File.endOf
  split_ifs with h
  · simp [h.1, h.2]
  · simp only [false_iff]
    exact fun h' => h ⟨h'.1, h'.2.1⟩

theorem File.endOf_of_not_pipe (h : x.type ≠ .pipe) : x.endOf = none := by
  unfold File.endOf
  rw [if_neg fun h' => h h'.2]

theorem File.endOf_of_ref_zero (h : x.ref = 0) : x.endOf = none := by
  unfold File.endOf
  rw [if_neg fun h' => by omega]

theorem File.heldIp_of_ref_zero (h : x.ref = 0) : x.heldIp = none := by
  unfold File.heldIp
  rw [if_neg fun h' => by omega]

theorem File.heldIp_of_type (h : x.type = .none ∨ x.type = .pipe) : x.heldIp = none := by
  unfold File.heldIp
  rw [if_neg]
  rintro ⟨-, h' | h'⟩ <;> rcases h with h | h <;> simp_all

/-- A count that stays positive changes neither view. -/
theorem File.endOf_setRef (hx : 0 < x.ref) {k : Nat} (hk : 0 < k) : { x with ref := k }.endOf = x.endOf := by
  simp [File.endOf, hx, hk]

theorem File.heldIp_setRef (hx : 0 < x.ref) {k : Nat} (hk : 0 < k) : { x with ref := k }.heldIp = x.heldIp := by
  simp [File.heldIp, hx, hk]

end Views

theorem Pipe.isOpen_pipeclose (pi : Pipe) (w w' : Bool) :
    (pipeclose pi w).isOpen w' = (pi.isOpen w' && w' != w) := by
  cases w <;> cases w' <;> simp [Xv6Sched.pipeclose, Pipe.isOpen]

theorem Pipe.closed_iff (pi : Pipe) : (!pi.readopen && !pi.writeopen) = true ↔ ∀ w, pi.isOpen w = false := by
  constructor
  · intro h w
    cases w <;> simp_all [Pipe.isOpen]
  · intro h
    have h0 := h false
    have h1 := h true
    simp_all [Pipe.isOpen]

/-! ### Counting slots and inode references -/

section Counting

variable {s : Ftable} {p : Fin NPROC} {fd : Fin NOFILE} {f : Fin NFILE}

theorem slots_setOfile (s : Ftable) (p : Fin NPROC) (fd : Fin NOFILE) (v : Option (Fin NFILE)) (f : Fin NFILE) :
    slots (s.setOfile p fd v).ofile f + (if s.ofile p fd = some f then 1 else 0) =
      slots s.ofile f + (if v = some f then 1 else 0) := by
  unfold slots
  rw [show Function.uncurry (s.setOfile p fd v).ofile = _ from Function.uncurry_update_update s.ofile p fd v]
  exact Scan.card_update_add (Function.uncurry s.ofile) (· = some f) (p, fd) v

theorem slots_pos (h : s.ofile p fd = some f) : 0 < slots s.ofile f :=
  Finset.card_pos.mpr ⟨(p, fd), by simp [h]⟩

theorem slots_eq_zero : slots s.ofile f = 0 ↔ ∀ p fd, s.ofile p fd ≠ some f := by
  unfold slots
  rw [Finset.card_eq_zero, Finset.filter_eq_empty_iff]
  simp only [Finset.mem_univ, true_implies, Prod.forall, Function.uncurry_apply_pair, ne_eq]

theorem slots_le (ofile : Fin NPROC → Fin NOFILE → Option (Fin NFILE)) (f : Fin NFILE) :
    slots ofile f ≤ NPROC * NOFILE :=
  (Finset.card_filter_le _ _).trans (by rw [Finset.card_univ, Fintype.card_prod, Fintype.card_fin, Fintype.card_fin])

theorem held_update (file : Fin NFILE → File) (f : Fin NFILE) (x : File) (ip : Nat) :
    held (Function.update file f x) ip + (if (file f).heldIp = some ip then 1 else 0) =
      held file ip + (if x.heldIp = some ip then 1 else 0) :=
  Scan.card_update_add file (fun y => y.heldIp = some ip) f x

end Counting

/-! ### The pipes -/

/-- The pipes agree with the entries: an open end's pipe is allocated, and its flag for an end
is set just when an entry is that end; each end has one entry; an allocated pipe has an open
end; and a pipe was `kfree`d, once, just when it was allocated and is no longer. -/
structure PipesOk (s : Ftable) : Prop where
  end_live : ∀ f pg w, (s.file f).endOf = some (pg, w) → s.pipes pg ≠ none
  flags : ∀ pg pi w, s.pipes pg = some pi → (pi.isOpen w = true ↔ ∃ f, (s.file f).endOf = some (pg, w))
  end_unique : ∀ f g e, (s.file f).endOf = some e → (s.file g).endOf = some e → f = g
  some_open : ∀ pg pi, s.pipes pg = some pi → ∃ w, pi.isOpen w = true
  fresh : ∀ pg, s.npipes ≤ pg → s.pipes pg = none
  nodup : s.kfreed.Nodup
  kfreed : ∀ pg, pg ∈ s.kfreed ↔ pg < s.npipes ∧ s.pipes pg = none

section Pipes

variable {s t : Ftable} {f : Fin NFILE} {x : File}

/-- The pipe invariant reads the entries only through their ends. -/
theorem PipesOk.congr (h : PipesOk s) (hf : ∀ g, (t.file g).endOf = (s.file g).endOf)
    (hp : t.pipes = s.pipes) (hn : t.npipes = s.npipes) (hk : t.kfreed = s.kfreed) : PipesOk t where
  end_live g pg w hg := by
    rw [hp]
    exact h.end_live g pg w (by rw [← hf g]; exact hg)
  flags pg pi w hpi := by
    simp only [hf]
    exact h.flags pg pi w (by rw [← hp]; exact hpi)
  end_unique g g' e hg hg' := h.end_unique g g' e (by rw [← hf g]; exact hg) (by rw [← hf g']; exact hg')
  some_open pg pi hpi := h.some_open pg pi (by rw [← hp]; exact hpi)
  fresh pg hpg := by
    rw [hp]
    exact h.fresh pg (by omega)
  nodup := by rw [hk]; exact h.nodup
  kfreed pg := by rw [hk, hn, hp]; exact h.kfreed pg

theorem endOf_setFile (s : Ftable) (f : Fin NFILE) (x : File) (g : Fin NFILE) :
    ((s.setFile f x).file g).endOf = if g = f then x.endOf else (s.file g).endOf := by
  by_cases hg : g = f
  · subst hg
    simp
  · simp [hg]

theorem PipesOk.setFile (h : PipesOk s) (hx : x.endOf = (s.file f).endOf) : PipesOk (s.setFile f x) :=
  h.congr (fun g => by rw [endOf_setFile]; split_ifs with hg <;> simp [hg, hx]) rfl rfl rfl

/-- An entry that stops being an end takes its end out of the set of ends. -/
theorem endOf_setFile_of_none (hx : x.endOf = none) (g : Fin NFILE) (e : Nat × Bool) :
    ((s.setFile f x).file g).endOf = some e ↔ (s.file g).endOf = some e ∧ g ≠ f := by
  rw [endOf_setFile]
  split_ifs with hg <;> simp [hg, hx]

/-- The pipe `pg` of an open end is allocated and was not freed. -/
theorem PipesOk.alloc_of_end (h : PipesOk s) {pg : Nat} {w : Bool} (hf : (s.file f).endOf = some (pg, w)) :
    pg < s.npipes ∧ pg ∉ s.kfreed := by
  have hl := h.end_live f pg w hf
  have hlt : pg < s.npipes := by
    by_contra hn
    exact hl (h.fresh pg (by omega))
  exact ⟨hlt, fun hk => hl ((h.kfreed pg).mp hk).2⟩

end Pipes

section Close

variable {s t : Ftable} {f : Fin NFILE} {x : File} {pg : Nat} {w : Bool} {pi : Pipe}

/-- The last entry for end `(pg, w)` is closed and the other end already was: `pipeclose` frees
the page. -/
theorem PipesOk.free (h : PipesOk s) (hf : (s.file f).endOf = some (pg, w)) (hx : x.endOf = none)
    (hpi : s.pipes pg = some pi) (hclosed : ∀ w', (pipeclose pi w).isOpen w' = false)
    (htf : t.file = Function.update s.file f x) (htp : t.pipes = Function.update s.pipes pg none)
    (htn : t.npipes = s.npipes) (htk : t.kfreed = s.kfreed ++ [pg]) : PipesOk t := by
  obtain ⟨hlt, hnk⟩ := h.alloc_of_end hf
  have hE : ∀ g e, (t.file g).endOf = some e ↔ (s.file g).endOf = some e ∧ g ≠ f := by
    intro g e
    rw [htf]
    exact endOf_setFile_of_none hx g e
  -- `f` was the pipe's only open end: the other end's flag was clear
  have hnone : ∀ g w', (s.file g).endOf = some (pg, w') → g = f := by
    intro g w' hg
    by_cases hw : w' = w
    · subst hw
      exact h.end_unique g f _ hg hf
    · have hopen := (h.flags pg pi w' hpi).mpr ⟨g, hg⟩
      have hc := hclosed w'
      rw [Pipe.isOpen_pipeclose, hopen] at hc
      simp [hw] at hc
  refine ⟨fun g pg' w' hg => ?_, fun pg' pi' w' hpi' => ?_, fun g g' e hg hg' => ?_, fun pg' pi' hpi' => ?_,
    fun pg' hpg' => ?_, ?_, fun pg' => ?_⟩
  · -- end_live
    obtain ⟨hg, hgf⟩ := (hE g _).mp hg
    have hp : pg' ≠ pg := fun hp => hgf (hnone g w' (hp ▸ hg))
    rw [htp, Function.update_of_ne hp]
    exact h.end_live g pg' w' hg
  · -- flags
    by_cases hp : pg' = pg
    · rw [htp, hp, Function.update_self] at hpi'
      cases hpi'
    · rw [htp, Function.update_of_ne hp] at hpi'
      refine (h.flags pg' pi' w' hpi').trans ⟨fun ⟨g, hg⟩ => ⟨g, (hE g _).mpr ⟨hg, ?_⟩⟩,
        fun ⟨g, hg⟩ => ⟨g, ((hE g _).mp hg).1⟩⟩
      rintro rfl
      rw [hf] at hg
      exact hp (Prod.mk.inj (Option.some.inj hg)).1.symm
  · -- end_unique
    exact h.end_unique g g' e ((hE g e).mp hg).1 ((hE g' e).mp hg').1
  · -- some_open
    by_cases hp : pg' = pg
    · rw [htp, hp, Function.update_self] at hpi'
      cases hpi'
    · rw [htp, Function.update_of_ne hp] at hpi'
      exact h.some_open pg' pi' hpi'
  · -- fresh
    rw [htp, Function.update_of_ne (by omega)]
    exact h.fresh pg' (by omega)
  · -- nodup
    rw [htk]
    exact List.nodup_append.mpr ⟨h.nodup, List.nodup_singleton pg, by
      intro a ha b hb
      rw [List.mem_singleton] at hb
      subst hb
      rintro rfl
      exact hnk ha⟩
  · -- kfreed
    rw [htk, htn, htp, List.mem_append, List.mem_singleton]
    by_cases hp : pg' = pg
    · subst hp
      simp [hlt]
    · simp [hp, h.kfreed pg']

/-- The last entry for end `(pg, w)` is closed while the other end is open: `pipeclose` clears
the end's flag and keeps the pipe. -/
theorem PipesOk.keep (h : PipesOk s) (hf : (s.file f).endOf = some (pg, w)) (hx : x.endOf = none)
    (hpi : s.pipes pg = some pi) (hopen : ∃ w', (pipeclose pi w).isOpen w' = true)
    (htf : t.file = Function.update s.file f x) (htp : t.pipes = Function.update s.pipes pg (some (pipeclose pi w)))
    (htn : t.npipes = s.npipes) (htk : t.kfreed = s.kfreed) : PipesOk t := by
  obtain ⟨hlt, hnk⟩ := h.alloc_of_end hf
  have hE : ∀ g e, (t.file g).endOf = some e ↔ (s.file g).endOf = some e ∧ g ≠ f := by
    intro g e
    rw [htf]
    exact endOf_setFile_of_none hx g e
  -- an end other than `(pg, w)` has the same entries as before
  have hends : ∀ pg' w', (pg', w') ≠ (pg, w) →
      ((∃ g, (t.file g).endOf = some (pg', w')) ↔ ∃ g, (s.file g).endOf = some (pg', w')) := by
    intro pg' w' hne
    refine ⟨fun ⟨g, hg⟩ => ⟨g, ((hE g _).mp hg).1⟩, fun ⟨g, hg⟩ => ⟨g, (hE g _).mpr ⟨hg, ?_⟩⟩⟩
    rintro rfl
    rw [hf] at hg
    exact hne (Option.some.inj hg).symm
  refine ⟨fun g pg' w' hg => ?_, fun pg' pi' w' hpi' => ?_, fun g g' e hg hg' => ?_, fun pg' pi' hpi' => ?_,
    fun pg' hpg' => ?_, ?_, fun pg' => ?_⟩
  · -- end_live
    rw [htp]
    by_cases hp : pg' = pg
    · rw [hp, Function.update_self]
      exact Option.some_ne_none _
    · rw [Function.update_of_ne hp]
      exact h.end_live g pg' w' ((hE g _).mp hg).1
  · -- flags
    by_cases hp : pg' = pg
    · rw [htp, hp, Function.update_self, Option.some.injEq] at hpi'
      subst hpi' hp
      rw [Pipe.isOpen_pipeclose]
      by_cases hw : w' = w
      · -- the closed end: its flag is clear and no entry is it any more
        subst hw
        simp only [bne_self_eq_false, Bool.and_false, Bool.false_eq_true, false_iff]
        rintro ⟨g, hg⟩
        obtain ⟨hg, hgf⟩ := (hE g _).mp hg
        exact hgf (h.end_unique g f _ hg hf)
      · have hbne : (w' != w) = true := by simpa using hw
        rw [hbne, Bool.and_true, h.flags pg' pi w' hpi, hends pg' w' fun he => hw (Prod.mk.inj he).2]
    · rw [htp, Function.update_of_ne hp] at hpi'
      rw [hends pg' w' fun he => hp (Prod.mk.inj he).1]
      exact h.flags pg' pi' w' hpi'
  · -- end_unique
    exact h.end_unique g g' e ((hE g e).mp hg).1 ((hE g' e).mp hg').1
  · -- some_open
    by_cases hp : pg' = pg
    · rw [htp, hp, Function.update_self, Option.some.injEq] at hpi'
      exact hpi' ▸ hopen
    · rw [htp, Function.update_of_ne hp] at hpi'
      exact h.some_open pg' pi' hpi'
  · -- fresh
    rw [htp, Function.update_of_ne (by omega)]
    exact h.fresh pg' (by omega)
  · -- nodup
    rw [htk]
    exact h.nodup
  · -- kfreed
    rw [htk, htn, htp]
    by_cases hp : pg' = pg
    · subst hp
      simp [hnk]
    · rw [Function.update_of_ne hp]
      exact h.kfreed pg'

/-- Closing the last entry of an end: `pipeclose` finds its pipe and keeps the invariant. -/
theorem PipesOk.pipeclose (h : PipesOk s) (hf : (s.file f).endOf = some (pg, w)) (hx : x.endOf = none) :
    ∃ t, (s.setFile f x).pipeclose pg w = some t ∧ PipesOk t := by
  obtain ⟨pi, hpi⟩ := Option.ne_none_iff_exists'.mp (h.end_live f pg w hf)
  unfold Ftable.pipeclose
  rw [setFile_pipes, hpi, Option.map_some]
  refine ⟨_, rfl, ?_⟩
  dsimp only
  split_ifs with hfree
  · exact h.free hf hx hpi ((Pipe.closed_iff _).mp hfree) rfl rfl rfl rfl
  · refine h.keep hf hx hpi ?_ rfl rfl rfl rfl
    by_contra hno
    exact hfree ((Pipe.closed_iff _).mpr fun w' => Bool.eq_false_iff.mpr fun h' => hno ⟨w', h'⟩)

end Close

section Open

variable {s : Ftable} {f0 f1 : Fin NFILE}

/-- The two entries `pipealloc` types are the new pipe's ends. -/
theorem endOf_openPipe (hne : f0 ≠ f1) (hp0 : 0 < (s.file f0).ref) (hp1 : 0 < (s.file f1).ref) (g : Fin NFILE) :
    ((s.openPipe f0 f1).file g).endOf =
      if g = f1 then some (s.npipes, true) else if g = f0 then some (s.npipes, false) else (s.file g).endOf := by
  unfold Ftable.openPipe
  by_cases g1 : g = f1
  · subst g1
    simp [File.endOf, hp1, hne.symm]
  · by_cases g0 : g = f0
    · subst g0
      simp [File.endOf, hp0, g1]
    · simp [g1, g0]

theorem PipesOk.openPipe (h : PipesOk s) (hne : f0 ≠ f1) (h0 : (s.file f0).endOf = none)
    (h1 : (s.file f1).endOf = none) (hp0 : 0 < (s.file f0).ref) (hp1 : 0 < (s.file f1).ref) :
    PipesOk (s.openPipe f0 f1) := by
  -- no entry was an end of the new pipe, whose number was fresh
  have hn : ∀ g w, (s.file g).endOf ≠ some (s.npipes, w) := fun g w hg =>
    h.end_live g _ w hg (h.fresh _ le_rfl)
  have hnew : ∀ g w, ((s.openPipe f0 f1).file g).endOf = some (s.npipes, w) ↔ g = bif w then f1 else f0 := by
    intro g w
    rw [endOf_openPipe hne hp0 hp1]
    split_ifs with g1 g0
    · subst g1
      cases w <;> simp [hne.symm]
    · subst g0
      cases w <;> simp [hne]
    · cases w <;> simp [hn g, g1, g0]
  have hold : ∀ g pg w, pg ≠ s.npipes →
      (((s.openPipe f0 f1).file g).endOf = some (pg, w) ↔ (s.file g).endOf = some (pg, w)) := by
    intro g pg w hp
    rw [endOf_openPipe hne hp0 hp1]
    split_ifs with g1 g0
    · subst g1
      simp [h1, Ne.symm hp]
    · subst g0
      simp [h0, Ne.symm hp]
    · rfl
  have hpipes : (s.openPipe f0 f1).pipes =
      Function.update s.pipes s.npipes (some (Xv6Sched.pipealloc fun _ => 5)) := rfl
  have hnp : (s.openPipe f0 f1).npipes = s.npipes + 1 := rfl
  have hk : (s.openPipe f0 f1).kfreed = s.kfreed := rfl
  refine ⟨fun g pg w hg => ?_, fun pg pi w hpi => ?_, fun g g' e hg hg' => ?_, fun pg pi hpi => ?_,
    fun pg hpg => ?_, h.nodup, fun pg => ?_⟩
  · -- end_live
    rw [hpipes]
    by_cases hp : pg = s.npipes
    · rw [hp, Function.update_self]
      exact Option.some_ne_none _
    · rw [Function.update_of_ne hp]
      exact h.end_live g pg w ((hold g pg w hp).mp hg)
  · -- flags: the new pipe has both ends open, each one entry
    by_cases hp : pg = s.npipes
    · rw [hpipes, hp, Function.update_self, Option.some.injEq] at hpi
      subst hpi hp
      exact ⟨fun _ => ⟨_, (hnew _ w).mpr rfl⟩, fun _ => by cases w <;> rfl⟩
    · rw [hpipes, Function.update_of_ne hp] at hpi
      simp only [hold _ pg w hp]
      exact h.flags pg pi w hpi
  · -- end_unique
    obtain ⟨pg, w⟩ := e
    by_cases hp : pg = s.npipes
    · subst hp
      rw [(hnew g w).mp hg, (hnew g' w).mp hg']
    · exact h.end_unique g g' _ ((hold g pg w hp).mp hg) ((hold g' pg w hp).mp hg')
  · -- some_open
    by_cases hp : pg = s.npipes
    · rw [hpipes, hp, Function.update_self, Option.some.injEq] at hpi
      exact ⟨true, hpi ▸ rfl⟩
    · rw [hpipes, Function.update_of_ne hp] at hpi
      exact h.some_open pg pi hpi
  · -- fresh
    rw [hnp] at hpg
    rw [hpipes, Function.update_of_ne (by omega)]
    exact h.fresh pg (by omega)
  · -- kfreed: the new pipe is not freed
    rw [hnp, hpipes, hk]
    by_cases hp : pg = s.npipes
    · subst hp
      simp only [Function.update_self, reduceCtorEq, and_false, iff_false]
      exact fun hk => absurd ((h.kfreed _).mp hk).1 (lt_irrefl _)
    · rw [Function.update_of_ne hp, h.kfreed pg]
      exact and_congr_left fun _ => by omega

end Open

/-! ### The invariant -/

/-- The file table inside a system call that holds the references `loc` in local variables. -/
structure FtInv (s : Ftable) (loc : List (Fin NFILE)) : Prop where
  ref_eq : ∀ f, (s.file f).ref = slots s.ofile f + loc.count f
  ref_zero : ∀ f, (s.file f).ref = 0 → (s.file f).type = .none
  dead : ∀ p, s.life p ≠ .live → ∀ fd, s.ofile p fd = none
  pipes : PipesOk s
  inodes : ∀ ip, s.opened.count ip = held s.file ip + s.iputs.count ip

/-- The file table between system calls. -/
def FtOk (s : Ftable) : Prop := FtInv s []

section Entries

variable {s : Ftable} {loc loc' : List (Fin NFILE)} {f : Fin NFILE} {x : File}

theorem count_cons_of_ne {g : Fin NFILE} (hg : g ≠ f) (loc : List (Fin NFILE)) : (f :: loc).count g = loc.count g := by
  simp [Ne.symm hg]

/-- Only how many references the call holds matters, not the order it took them in. -/
theorem FtInv.perm (h : FtInv s loc) (hp : loc.Perm loc') : FtInv s loc' :=
  { h with ref_eq := fun f => by rw [h.ref_eq f, hp.count_eq f] }

theorem refEq_setFile (x : File) (h : ∀ g, (s.file g).ref = slots s.ofile g + loc.count g)
    (href : x.ref = slots s.ofile f + loc'.count f) (hloc : ∀ g, g ≠ f → loc'.count g = loc.count g) :
    ∀ g, ((s.setFile f x).file g).ref = slots (s.setFile f x).ofile g + loc'.count g := by
  intro g
  by_cases hg : g = f
  · subst hg
    simpa using href
  · simp [Function.update_of_ne hg, hloc g hg, h g]

theorem refZero_setFile (f : Fin NFILE) (x : File) (h : ∀ g, (s.file g).ref = 0 → (s.file g).type = .none)
    (hz : x.ref = 0 → x.type = .none) : ∀ g, ((s.setFile f x).file g).ref = 0 → ((s.setFile f x).file g).type = .none := by
  intro g
  by_cases hg : g = f
  · subst hg
    simpa using hz
  · simpa [Function.update_of_ne hg] using h g

theorem held_congr {file file' : Fin NFILE → File} (h : ∀ g, (file' g).heldIp = (file g).heldIp) (ip : Nat) :
    held file' ip = held file ip := by
  unfold held
  simp only [h]

theorem inodes_setFile (h : ∀ ip, s.opened.count ip = held s.file ip + s.iputs.count ip)
    (hheld : x.heldIp = (s.file f).heldIp) :
    ∀ ip, (s.setFile f x).opened.count ip = held (s.setFile f x).file ip + (s.setFile f x).iputs.count ip := by
  intro ip
  have hc := held_update s.file f x ip
  rw [hheld] at hc
  rw [setFile_opened, setFile_iputs, setFile_file, h ip]
  omega

/-- Writing an entry without changing which end or inode it holds keeps the invariant when its
count is right. -/
theorem FtInv.setFile (h : FtInv s loc) (hend : x.endOf = (s.file f).endOf) (hheld : x.heldIp = (s.file f).heldIp)
    (href : x.ref = slots s.ofile f + loc'.count f) (hloc : ∀ g, g ≠ f → loc'.count g = loc.count g)
    (hz : x.ref = 0 → x.type = .none) : FtInv (s.setFile f x) loc' where
  ref_eq := refEq_setFile x h.ref_eq href hloc
  ref_zero := refZero_setFile f x h.ref_zero hz
  dead := h.dead
  pipes := h.pipes.setFile hend
  inodes := inodes_setFile h.inodes hheld

/-- An entry a descriptor holds is open. -/
theorem FtInv.ref_pos (h : FtInv s loc) {p : Fin NPROC} {fd : Fin NOFILE} (hs : s.ofile p fd = some f) :
    0 < (s.file f).ref := by
  rw [h.ref_eq f]
  exact Nat.lt_of_lt_of_le (slots_pos hs) (Nat.le_add_right _ _)

end Entries

/-! ### Each step of a system call -/

section Steps

variable {s s' : Ftable} {loc : List (Fin NFILE)} {p : Fin NPROC} {fd : Fin NOFILE} {f : Fin NFILE}

/-- `filealloc` takes a free entry, `FD_NONE`, into the call's hands. -/
theorem FtInv.filealloc (h : FtInv s loc) (ha : s.filealloc = some (f, s')) :
    FtInv s' (f :: loc) ∧ (s'.file f).type = .none ∧ (s'.file f).ref = 1 := by
  obtain ⟨h0, rfl⟩ := filealloc_eq_some ha
  have hz := h.ref_zero f h0
  have hs := h.ref_eq f
  refine ⟨h.setFile ?_ ?_ ?_ (fun g hg => count_cons_of_ne hg loc) (fun h1 => absurd h1 one_ne_zero),
    by simpa using hz, by simp⟩
  · rw [File.endOf_of_not_pipe (by simp [hz]), File.endOf_of_ref_zero h0]
  · rw [File.heldIp_of_type (by simp [hz]), File.heldIp_of_ref_zero h0]
  · simp only [List.count_cons_self]
    omega

/-- A reference the call holds goes into a free descriptor of a live process. -/
theorem FtInv.install (h : FtInv s (f :: loc)) (hp : s.life p = .live) (hfd : s.ofile p fd = none) :
    FtInv (s.setOfile p fd (some f)) loc where
  ref_eq g := by
    have hc := slots_setOfile s p fd (some f) g
    have hr := h.ref_eq g
    rw [hfd] at hc
    by_cases hg : g = f
    · subst hg
      simp only [List.count_cons_self, reduceCtorEq, if_false, if_true] at hc hr
      rw [setOfile_file, hr]
      omega
    · simp only [Option.some.injEq, Ne.symm hg, if_false, reduceCtorEq] at hc
      rw [count_cons_of_ne hg] at hr
      rw [setOfile_file, hr]
      omega
  ref_zero := h.ref_zero
  dead q hq d := by
    have hqp : q ≠ p := fun e => hq (e ▸ hp)
    rw [setOfile_ofile, Function.update_of_ne hqp]
    exact h.dead q hq d
  pipes := h.pipes.congr (fun _ => rfl) rfl rfl rfl
  inodes := h.inodes

theorem FtInv.fdalloc (h : FtInv s (f :: loc)) (hp : s.life p = .live) (hd : s.fdalloc p f = some (fd, s')) :
    FtInv s' loc := by
  obtain ⟨hfd, rfl⟩ := fdalloc_eq_some hd
  exact h.install hp hfd

/-- Clearing a descriptor hands its reference to the call. -/
theorem FtInv.unslot (h : FtInv s loc) (hfd : s.ofile p fd = some f) :
    FtInv (s.setOfile p fd none) (f :: loc) where
  ref_eq g := by
    have hc := slots_setOfile s p fd none g
    have hr := h.ref_eq g
    rw [hfd] at hc
    by_cases hg : g = f
    · subst hg
      simp only [if_true, reduceCtorEq, if_false] at hc
      rw [setOfile_file, hr, List.count_cons_self]
      omega
    · simp only [Option.some.injEq, Ne.symm hg, if_false, reduceCtorEq] at hc
      rw [setOfile_file, hr, count_cons_of_ne hg]
      omega
  ref_zero := h.ref_zero
  dead q hq d := by
    by_cases hqp : q = p
    · subst hqp
      by_cases hd : d = fd
      · subst hd
        simp
      · simp [Function.update_of_ne hd, h.dead q hq d]
    · rw [setOfile_ofile, Function.update_of_ne hqp]
      exact h.dead q hq d
  pipes := h.pipes.congr (fun _ => rfl) rfl rfl rfl
  inodes := h.inodes

/-- `filedup` adds a reference to an open entry, into the call's hands. -/
theorem FtInv.filedup (h : FtInv s loc) (hf : 0 < (s.file f).ref) :
    FtInv (s.setFile f { s.file f with ref := (s.file f).ref + 1 }) (f :: loc) :=
  h.setFile (File.endOf_setRef hf (by omega)) (File.heldIp_setRef hf (by omega))
    (by rw [List.count_cons_self, ← Nat.add_assoc, ← h.ref_eq f]) (fun g hg => count_cons_of_ne hg loc)
    (fun h0 => absurd h0 (by simp))

/-- The last reference to an `FD_INODE` or `FD_DEVICE` entry goes: `iput` gives the inode
reference back. -/
theorem FtInv.putInode (h : FtInv s (f :: loc)) (h1 : (s.file f).ref = 1)
    (ht : (s.file f).type = .inode ∨ (s.file f).type = .device) :
    FtInv { s.setFile f { s.file f with ref := 0, type := .none } with iputs := s.iputs ++ [(s.file f).ip] } loc := by
  have hs0 : 0 = slots s.ofile f + loc.count f := by
    have := h.ref_eq f
    rw [List.count_cons_self] at this
    omega
  have hheld : (s.file f).heldIp = some (s.file f).ip := by
    unfold File.heldIp
    rw [if_pos ⟨by omega, ht⟩]
  refine ⟨refEq_setFile _ h.ref_eq hs0 fun g hg => (count_cons_of_ne hg loc).symm,
    refZero_setFile f _ h.ref_zero fun _ => rfl, h.dead,
    (h.pipes.setFile ?_).congr (fun _ => rfl) rfl rfl rfl, fun ip => ?_⟩
  · rw [File.endOf_of_ref_zero rfl, File.endOf_of_not_pipe]
    rcases ht with ht | ht <;> simp [ht]
  · -- the reference leaves `held` and enters `iputs`
    have hc := held_update s.file f { s.file f with ref := 0, type := .none } ip
    rw [hheld, File.heldIp_of_ref_zero rfl] at hc
    show s.opened.count ip = held (Function.update s.file f _) ip + (s.iputs ++ [(s.file f).ip]).count ip
    rw [List.count_append, h.inodes ip]
    by_cases hip : (s.file f).ip = ip
    · simp only [hip, if_true, reduceCtorEq, if_false, List.count_singleton_self] at hc ⊢
      omega
    · simp only [Option.some.injEq, hip, if_false, reduceCtorEq] at hc
      simp only [List.count_singleton, beq_iff_eq, hip, if_false]
      omega

/-- `fileclose` of a reference the call holds never panics, and keeps the invariant: the count
goes down, and the last reference releases the entry's pipe end or inode. -/
theorem FtInv.fileclose (h : FtInv s (f :: loc)) : ∃ s', s.fileclose f = some s' ∧ FtInv s' loc := by
  have href := h.ref_eq f
  rw [List.count_cons_self] at href
  have hloc : ∀ g, g ≠ f → loc.count g = (f :: loc).count g := fun g hg => (count_cons_of_ne hg loc).symm
  unfold Ftable.fileclose
  dsimp only
  rw [if_neg (by omega)]
  split_ifs with hgt
  · -- another reference remains
    exact ⟨_, rfl, h.setFile (File.endOf_setRef (by omega) hgt) (File.heldIp_setRef (by omega) hgt)
      (by dsimp only; omega) hloc fun h0 => absurd h0 (by dsimp only; omega)⟩
  · -- the last reference: the entry is released
    have h1 : (s.file f).ref = 1 := by omega
    have hs0 : 0 = slots s.ofile f + loc.count f := by omega
    have hr := refEq_setFile { s.file f with ref := 0, type := .none } h.ref_eq hs0 hloc
    have hz := refZero_setFile f { s.file f with ref := 0, type := .none } h.ref_zero fun _ => rfl
    have hx0 : ({ s.file f with ref := 0, type := .none } : File).endOf = none := File.endOf_of_ref_zero rfl
    have hh0 : ({ s.file f with ref := 0, type := .none } : File).heldIp = none := File.heldIp_of_ref_zero rfl
    cases ht : (s.file f).type with
    | none =>
      -- an entry no call typed: nothing to release
      refine ⟨_, rfl, ⟨hr, hz, h.dead, h.pipes.setFile ?_, inodes_setFile h.inodes ?_⟩⟩
      · rw [hx0, File.endOf_of_not_pipe (by simp [ht])]
      · rw [hh0, File.heldIp_of_type (Or.inl ht)]
    | pipe =>
      -- `pipeclose` of its end
      have hend : (s.file f).endOf = some ((s.file f).pipe, (s.file f).writable) :=
        File.endOf_eq_some.mpr ⟨by omega, ht, rfl, rfl⟩
      obtain ⟨t, hct, hpt⟩ := h.pipes.pipeclose hend hx0
      obtain ⟨hf, ho, hl, -, hop, hi⟩ := pipeclose_frame hct
      refine ⟨t, hct, ⟨fun g => ?_, fun g => ?_, fun q hq => ?_, hpt, fun ip => ?_⟩⟩
      · rw [hf, ho]
        exact hr g
      · rw [hf]
        exact hz g
      · rw [ho]
        exact h.dead q (by rw [hl] at hq; exact hq)
      · rw [hop, hi, hf]
        exact inodes_setFile h.inodes (by rw [hh0, File.heldIp_of_type (Or.inr ht)]) ip
    | inode => exact ⟨_, rfl, h.putInode h1 (Or.inl ht)⟩
    | device => exact ⟨_, rfl, h.putInode h1 (Or.inr ht)⟩

/-- `sys_open` types the entry it took and installed: the inode reference moves into it. -/
theorem FtInv.openInode (h : FtInv s loc) (ht : (s.file f).type = .none) (hp : 0 < (s.file f).ref)
    (hx : x.ref = (s.file f).ref) (hxt : x.type = .inode ∨ x.type = .device) :
    FtInv { s.setFile f x with opened := s.opened ++ [x.ip] } loc := by
  have hheld : x.heldIp = some x.ip := by
    unfold File.heldIp
    rw [if_pos ⟨by omega, hxt⟩]
  refine ⟨refEq_setFile x h.ref_eq (by rw [hx]; exact h.ref_eq f) fun _ _ => rfl,
    refZero_setFile f x h.ref_zero (fun h0 => absurd h0 (by omega)), h.dead,
    (h.pipes.setFile ?_).congr (fun _ => rfl) rfl rfl rfl, fun ip => ?_⟩
  · rw [File.endOf_of_not_pipe, File.endOf_of_not_pipe] <;> rcases hxt with hxt | hxt <;> simp [hxt, ht]
  · -- the reference enters `held` and `opened` together
    have hc := held_update s.file f x ip
    rw [hheld, File.heldIp_of_type (Or.inl ht)] at hc
    show (s.opened ++ [x.ip]).count ip = held (Function.update s.file f x) ip + s.iputs.count ip
    rw [List.count_append, h.inodes ip]
    by_cases hip : x.ip = ip
    · simp only [hip, if_true, reduceCtorEq, if_false, List.count_singleton_self] at hc ⊢
      omega
    · simp only [Option.some.injEq, hip, if_false, reduceCtorEq] at hc
      simp only [List.count_singleton, beq_iff_eq, hip, if_false]
      omega

/-- The entries `pipealloc` types keep their counts and hold no inode. -/
theorem openPipe_file {f0 f1 : Fin NFILE} (hne : f0 ≠ f1) (g : Fin NFILE) :
    ((s.openPipe f0 f1).file g).ref = (s.file g).ref ∧
      (g ≠ f0 → g ≠ f1 → (s.openPipe f0 f1).file g = s.file g) := by
  unfold Ftable.openPipe
  by_cases g1 : g = f1
  · subst g1
    simp [hne.symm]
  · by_cases g0 : g = f0
    · subst g0
      simp [g1]
    · simp [g1, g0]

/-- `pipealloc`'s success path keeps the invariant. -/
theorem FtInv.openPipe {f0 f1 : Fin NFILE} (h : FtInv s loc) (hne : f0 ≠ f1) (h0 : (s.file f0).type = .none)
    (h1 : (s.file f1).type = .none) (hp0 : 0 < (s.file f0).ref) (hp1 : 0 < (s.file f1).ref) :
    FtInv (s.openPipe f0 f1) loc := by
  -- the two entries were `FD_NONE`, and are pipe ends: neither holds an inode before or after
  have hheld : ∀ g, ((s.openPipe f0 f1).file g).heldIp = (s.file g).heldIp := by
    intro g
    by_cases g0 : g = f0
    · subst g0
      rw [File.heldIp_of_type (Or.inl h0), File.heldIp_of_type (Or.inr (by
        unfold Ftable.openPipe; by_cases hg : g = f1 <;> simp [hg]))]
    · by_cases g1 : g = f1
      · subst g1
        rw [File.heldIp_of_type (Or.inl h1), File.heldIp_of_type (Or.inr (by
          unfold Ftable.openPipe; simp))]
      · rw [(openPipe_file hne g).2 g0 g1]
  refine ⟨fun g => ?_, fun g hg => ?_, h.dead, h.pipes.openPipe hne ?_ ?_ hp0 hp1, fun ip => ?_⟩
  · rw [(openPipe_file hne g).1]
    exact h.ref_eq g
  · by_cases g0 : g = f0
    · subst g0
      rw [(openPipe_file hne g).1] at hg
      omega
    · by_cases g1 : g = f1
      · subst g1
        rw [(openPipe_file hne g).1] at hg
        omega
      · rw [(openPipe_file hne g).2 g0 g1] at hg ⊢
        exact h.ref_zero g hg
  · exact File.endOf_of_not_pipe (by simp [h0])
  · exact File.endOf_of_not_pipe (by simp [h1])
  · rw [held_congr hheld]
    exact h.inodes ip

/-- A process slot changes its life; one that stops being live has no descriptors. -/
theorem FtInv.setLife (h : FtInv s loc) (q : Fin NPROC) (l : Life) (hl : l ≠ .live → ∀ fd, s.ofile q fd = none) :
    FtInv { s with life := Function.update s.life q l } loc where
  ref_eq := h.ref_eq
  ref_zero := h.ref_zero
  dead p hp fd := by
    by_cases hpq : p = q
    · subst hpq
      exact hl (by simpa using hp) fd
    · exact h.dead p (by simpa [Function.update_of_ne hpq] using hp) fd
  pipes := h.pipes.congr (fun _ => rfl) rfl rfl rfl
  inodes := h.inodes

end Steps

/-! ### The system calls -/

section Calls

variable {s : Ftable} {p : Fin NPROC}

/-- `sys_open` never panics and keeps the invariant, on every path. -/
theorem FtOk.sysOpen (h : FtOk s) (hp : s.life p = .live) (ip : Option (Nat × Bool)) (omode : Int32) :
    ∃ r s', s.sysOpen p ip omode = some (r, s') ∧ FtOk s' := by
  unfold Ftable.sysOpen
  rcases ip with _ | ⟨ip, dev⟩
  · exact ⟨_, _, rfl, h⟩
  dsimp only
  cases ha : s.filealloc with
  | none => exact ⟨_, _, rfl, h⟩
  | some a =>
    obtain ⟨f, s1⟩ := a
    obtain ⟨h1, ht1, hr1⟩ := FtInv.filealloc h ha
    have hp1 : s1.life p = .live := by rw [(filealloc_eq_some ha).2]; exact hp
    dsimp only
    cases hd : s1.fdalloc p f with
    | none =>
      -- no free descriptor: the entry is closed again
      obtain ⟨s2, hc, h2⟩ := h1.fileclose
      exact ⟨_, _, by rw [hc]; rfl, h2⟩
    | some b =>
      obtain ⟨fd, s2⟩ := b
      obtain ⟨hfd, rfl⟩ := fdalloc_eq_some hd
      exact ⟨_, _, rfl, (h1.install hp1 hfd).openInode ht1 (by simp [hr1]) rfl (by cases dev <;> simp)⟩

/-- `sys_dup`: `fdalloc` and `filedup` of an open entry. -/
theorem FtOk.sysDup (h : FtOk s) (hp : s.life p = .live) (n : Int) :
    ∃ r s', s.sysDup p n = some (r, s') ∧ FtOk s' := by
  unfold Ftable.sysDup
  cases ha : s.argfd p n with
  | none => exact ⟨_, _, rfl, h⟩
  | some a =>
    obtain ⟨d, f⟩ := a
    -- the descriptor holds `f`, so `f` is open
    have hpos : 0 < (s.file f).ref := FtInv.ref_pos h (argfd_eq_some ha)
    dsimp only
    cases hd : s.fdalloc p f with
    | none => exact ⟨_, _, rfl, h⟩
    | some b =>
      obtain ⟨fd, s1⟩ := b
      obtain ⟨hfd, rfl⟩ := fdalloc_eq_some hd
      have hdup : (s.setOfile p fd (some f)).filedup f =
          some ((s.setFile f { s.file f with ref := (s.file f).ref + 1 }).setOfile p fd (some f)) := by
        rw [filedup_of_pos (by simpa using hpos)]
        rfl
      exact ⟨_, _, by dsimp only; rw [hdup]; rfl, (FtInv.filedup h hpos).install hp hfd⟩

/-- `sys_close`: the descriptor is cleared and its file closed. -/
theorem FtOk.sysClose (h : FtOk s) (n : Int) : ∃ r s', s.sysClose p n = some (r, s') ∧ FtOk s' := by
  unfold Ftable.sysClose
  cases ha : s.argfd p n with
  | none => exact ⟨_, _, rfl, h⟩
  | some a =>
    obtain ⟨d, f⟩ := a
    obtain ⟨s', hc, h'⟩ := (FtInv.unslot h (argfd_eq_some ha)).fileclose
    exact ⟨_, _, by dsimp only; rw [hc]; rfl, h'⟩

/-- The error paths of `sys_pipe` close both ends the call holds. -/
theorem FtInv.pipeFail {rf wf : Fin NFILE} (h : FtInv s [rf, wf]) :
    ∃ r s', s.pipeFail rf wf = some (r, s') ∧ FtOk s' := by
  obtain ⟨s1, hc1, h1⟩ := h.fileclose
  obtain ⟨s2, hc2, h2⟩ := h1.fileclose
  exact ⟨-1, s2, by simp [Ftable.pipeFail, hc1, hc2], h2⟩

/-- `pipealloc` never panics: it fails with the table as the invariant wants it, or succeeds
with the two ends in the call's hands; the processes are untouched. -/
theorem FtOk.pipealloc (h : FtOk s) (k : Bool) :
    ∃ r s', s.pipealloc k = some (r, s') ∧ s'.life = s.life ∧
      (r = none ∧ FtOk s' ∨ ∃ rf wf, r = some (rf, wf) ∧ FtInv s' [wf, rf]) := by
  unfold Ftable.pipealloc
  cases ha : s.filealloc with
  | none => exact ⟨_, _, rfl, rfl, .inl ⟨rfl, h⟩⟩
  | some a =>
    obtain ⟨f0, s1⟩ := a
    obtain ⟨h1, ht1, hr1⟩ := FtInv.filealloc h ha
    have hl1 : s1.life = s.life := by rw [(filealloc_eq_some ha).2]; rfl
    dsimp only
    cases hb : s1.filealloc with
    | none =>
      -- no second entry: the first is closed again
      obtain ⟨s2, hc, h2⟩ := h1.fileclose
      exact ⟨_, _, by simp [pipeallocBad, closeIf, hc], by rw [(fileclose_frame hc).2, hl1], .inl ⟨rfl, h2⟩⟩
    | some b =>
      obtain ⟨f1, s2⟩ := b
      obtain ⟨h2, ht2, hr2⟩ := h1.filealloc hb
      have hl2 : s2.life = s.life := by rw [(filealloc_eq_some hb).2, ← hl1]; rfl
      -- the second entry is not the first, which now has `ref = 1`
      have hne : f0 ≠ f1 := by
        rintro rfl
        have := (filealloc_eq_some hb).1
        omega
      have h0 : s2.file f0 = s1.file f0 := by
        rw [(filealloc_eq_some hb).2, setFile_file, Function.update_of_ne hne]
      dsimp only
      cases k with
      | false =>
        -- no page: both entries are closed again
        obtain ⟨s3, hc3, h3⟩ := (h2.perm (List.Perm.swap f0 f1 [])).fileclose
        obtain ⟨s4, hc4, h4⟩ := h3.fileclose
        refine ⟨_, _, by simp [pipeallocBad, closeIf, hc3, hc4], ?_, .inl ⟨rfl, h4⟩⟩
        rw [(fileclose_frame hc4).2, (fileclose_frame hc3).2, hl2]
      | true =>
        exact ⟨_, _, rfl, hl2, .inr ⟨f0, f1, rfl, h2.openPipe hne (by rw [h0]; exact ht1) ht2
          (by rw [h0, hr1]; omega) (by omega)⟩⟩

/-- `sys_pipe` never panics and keeps the invariant, on every path. -/
theorem FtOk.sysPipe (h : FtOk s) (hp : s.life p = .live) (k c : Bool) :
    ∃ r s', s.sysPipe p k c = some (r, s') ∧ FtOk s' := by
  obtain ⟨r, s1, ha, hl1, hr⟩ := h.pipealloc k
  unfold Ftable.sysPipe
  rw [ha]
  rcases hr with ⟨rfl, h1⟩ | ⟨rf, wf, rfl, h1⟩
  · exact ⟨_, _, rfl, h1⟩
  have hp1 : s1.life p = .live := by rw [hl1]; exact hp
  dsimp only
  cases hd0 : s1.fdalloc p rf with
  | none => exact (h1.perm (List.Perm.swap rf wf [])).pipeFail
  | some b =>
    obtain ⟨fd0, s2⟩ := b
    have h2 := (h1.perm (List.Perm.swap rf wf [])).fdalloc hp1 hd0
    obtain ⟨hfd0, rfl⟩ := fdalloc_eq_some hd0
    have hslot0 : (s1.setOfile p fd0 (some rf)).ofile p fd0 = some rf := by simp
    dsimp only
    cases hd1 : (s1.setOfile p fd0 (some rf)).fdalloc p wf with
    | none => exact (h2.unslot hslot0).pipeFail
    | some c' =>
      obtain ⟨fd1, s3⟩ := c'
      have h3 := h2.fdalloc hp1 hd1
      obtain ⟨hfd1, rfl⟩ := fdalloc_eq_some hd1
      -- the two descriptors differ: `fd1` was free when `fd0` held `rf`
      have hne : fd1 ≠ fd0 := by
        rintro rfl
        rw [hslot0] at hfd1
        cases hfd1
      dsimp only
      cases c with
      | true => exact ⟨_, _, rfl, h3⟩
      | false =>
        -- a `copyout` failed: both descriptors are cleared and both ends closed
        have hs0 : ((s1.setOfile p fd0 (some rf)).setOfile p fd1 (some wf)).ofile p fd0 = some rf := by
          simp [Function.update_of_ne hne.symm]
        have hs1 : (((s1.setOfile p fd0 (some rf)).setOfile p fd1 (some wf)).setOfile p fd0 none).ofile p fd1 =
            some wf := by
          simp [Function.update_of_ne hne]
        exact ((h3.unslot hs0).unslot hs1 |>.perm (List.Perm.swap rf wf [])).pipeFail

end Calls

/-! ### `fork` and `exit` -/

section Loops

variable {s : Ftable} {p np : Fin NPROC}

/-- One pass of `fork`'s loop: a descriptor of `p` is duplicated into the free slot of `np`. -/
theorem FtOk.forkFd (h : FtOk s) (hnp : s.life np = .live) {i : Fin NOFILE} (hfree : s.ofile np i = none) :
    ∃ s', s.forkFd p np i = some s' ∧ FtOk s' ∧ s'.life = s.life ∧ ∀ j, j ≠ i → s'.ofile np j = s.ofile np j := by
  unfold Ftable.forkFd
  cases hs : s.ofile p i with
  | none => exact ⟨s, rfl, h, rfl, fun _ _ => rfl⟩
  | some f =>
    have hpos : 0 < (s.file f).ref := FtInv.ref_pos h hs
    refine ⟨_, by dsimp only; rw [filedup_of_pos hpos]; rfl, (FtInv.filedup h hpos).install hnp hfree, rfl,
      fun j hj => ?_⟩
    simp [Function.update_of_ne hj]

/-- `fork`'s loop over the descriptors `l`, each free in `np`, runs to its end. -/
theorem FtOk.forkLoop (hnp : s.life np = .live) (h : FtOk s) :
    ∀ {l : List (Fin NOFILE)}, l.Nodup → (∀ i ∈ l, s.ofile np i = none) →
      ∃ s', l.foldlM (Ftable.forkFd p np) s = some s' ∧ FtOk s' := by
  intro l
  induction l generalizing s with
  | nil => intro _ _; exact ⟨s, rfl, h⟩
  | cons i l ih =>
    intro hnd hfree
    obtain ⟨hi, hl⟩ := List.nodup_cons.mp hnd
    obtain ⟨s1, hs1, h1, hl1, hother⟩ := h.forkFd hnp (hfree i List.mem_cons_self)
    -- the rest of the loop: `np`'s other descriptors are still free
    obtain ⟨s2, hs2, h2⟩ := ih (by rw [hl1]; exact hnp) h1 hl fun j hj => by
      rw [hother j fun e => hi (e ▸ hj)]
      exact hfree j (List.mem_cons_of_mem i hj)
    exact ⟨s2, by rw [List.foldlM_cons, hs1]; exact hs2, h2⟩

/-- `fork` never panics and keeps the invariant: `allocproc` takes an unused slot, which has no
descriptors, and the loop duplicates every descriptor of the parent into it. -/
theorem FtOk.fork (h : FtOk s) (p : Fin NPROC) (c : Bool) : ∃ s', s.fork p c = some s' ∧ FtOk s' := by
  unfold Ftable.fork
  cases hf : Scan.firstFin fun q => s.life q == .unused with
  | none => exact ⟨s, rfl, h⟩
  | some q =>
    have hu : s.life q = .unused := by simpa using Scan.firstFin_spec hf
    dsimp only
    cases c with
    | false => exact ⟨s, rfl, h⟩
    | true =>
      have hfree : ∀ i, s.ofile q i = none := h.dead q (by simp [hu])
      exact FtOk.forkLoop (by simp) (FtInv.setLife h q .live fun hl => absurd rfl hl)
        (List.nodup_finRange NOFILE) fun i _ => hfree i

/-- One pass of `exit`'s loop: descriptor `fd` of `p` is closed. -/
theorem FtOk.exitFd (p : Fin NPROC) (h : FtOk s) (fd : Fin NOFILE) :
    ∃ s', s.exitFd p fd = some s' ∧ FtOk s' ∧ s'.life = s.life ∧ s'.ofile p fd = none ∧
      ∀ d, s.ofile p d = none → s'.ofile p d = none := by
  unfold Ftable.exitFd
  cases hs : s.ofile p fd with
  | none => exact ⟨s, rfl, h, rfl, hs, fun _ hd => hd⟩
  | some f =>
    -- `exit` closes, then clears; the same as `sys_close`'s clear, then close
    obtain ⟨s', hc, h'⟩ := (FtInv.unslot h hs).fileclose
    obtain ⟨ho, hl⟩ := fileclose_frame hc
    refine ⟨s', by dsimp only; rw [← fileclose_setOfile]; exact hc, h', hl, by rw [ho]; simp, fun d hd => ?_⟩
    rw [ho]
    by_cases hdf : d = fd
    · subst hdf
      simp
    · simp [Function.update_of_ne hdf, hd]

/-- `exit`'s loop over the descriptors `l` runs to its end and leaves each of them, and each
descriptor that was free, free. -/
theorem FtOk.exitLoop (p : Fin NPROC) : ∀ (l : List (Fin NOFILE)) {s : Ftable}, FtOk s →
    ∃ s', l.foldlM (Ftable.exitFd p) s = some s' ∧ FtOk s' ∧ s'.life = s.life ∧
      ∀ fd, fd ∈ l ∨ s.ofile p fd = none → s'.ofile p fd = none := by
  intro l
  induction l with
  | nil => exact fun h => ⟨_, rfl, h, rfl, fun _ hfd => hfd.resolve_left List.not_mem_nil⟩
  | cons i l ih =>
    intro s h
    obtain ⟨s1, hs1, h1, hl1, hi1, hnone1⟩ := h.exitFd p i
    obtain ⟨s2, hs2, h2, hl2, hnone2⟩ := ih h1
    refine ⟨s2, by rw [List.foldlM_cons, hs1]; exact hs2, h2, hl2.trans hl1, fun fd hfd => hnone2 fd ?_⟩
    rcases hfd with hfd | hfd
    · rcases List.mem_cons.mp hfd with rfl | hfd
      · exact Or.inr hi1
      · exact Or.inl hfd
    · exact Or.inr (hnone1 fd hfd)

/-- `exit` by any process but `initproc` closes every descriptor and keeps the invariant. -/
theorem FtOk.exit (h : FtOk s) (hp : p ≠ initproc) : ∃ s', s.exit p = some s' ∧ FtOk s' := by
  unfold Ftable.exit
  rw [if_neg hp]
  obtain ⟨s1, hs1, h1, -, hnone⟩ := FtOk.exitLoop p (List.finRange NOFILE) h
  exact ⟨_, by rw [hs1]; rfl, FtInv.setLife h1 p .zombie fun _ fd => hnone fd (Or.inl (List.mem_finRange fd))⟩

end Loops

/-! ### Every reachable state -/

theorem ftOk_init : FtOk Ftable.init := by
  unfold FtOk
  refine ⟨fun f => ?_, fun _ _ => rfl, fun _ _ _ => rfl, ?_, fun ip => ?_⟩
  · have h0 : slots Ftable.init.ofile f = 0 := slots_eq_zero.mpr fun _ _ h => by cases h
    rw [h0]
    rfl
  · refine ⟨fun _ _ _ hf => ?_, fun _ _ _ hp => ?_, fun _ _ _ hf => ?_, fun _ _ hp => ?_, fun _ _ => rfl,
      List.nodup_nil, fun _ => ?_⟩
    all_goals simp [Ftable.init, File.endOf] at *
  · simp [Ftable.init, held, File.heldIp]

/-- A call that returns a value and a table: the table is `FtOk` when the call's is. -/
theorem FtOk.of_call {c : Option (Int × Ftable)} {s' : Ftable} (hc : ∃ r t, c = some (r, t) ∧ FtOk t)
    (hs : c.map Prod.snd = some s') : FtOk s' := by
  obtain ⟨r, t, rfl, ht⟩ := hc
  obtain rfl := Option.some.inj hs
  exact ht

/-- Every step keeps the invariant. -/
theorem FtOk.step {s s' : Ftable} (h : FtOk s) {op : FileOp} (hs : fileStep s op = some s') : FtOk s' := by
  cases op with
  | sysOpen p ip omode =>
    dsimp only [fileStep] at hs
    split_ifs at hs with hp
    exact FtOk.of_call (h.sysOpen hp ip omode) hs
  | sysDup p fd =>
    dsimp only [fileStep] at hs
    split_ifs at hs with hp
    exact FtOk.of_call (h.sysDup hp fd) hs
  | sysClose p fd =>
    dsimp only [fileStep] at hs
    split_ifs at hs
    exact FtOk.of_call (h.sysClose fd) hs
  | sysPipe p k c =>
    dsimp only [fileStep] at hs
    split_ifs at hs with hp
    exact FtOk.of_call (h.sysPipe hp k c) hs
  | fork p c =>
    dsimp only [fileStep] at hs
    split_ifs at hs
    obtain ⟨t, ht, hok⟩ := h.fork p c
    rw [ht] at hs
    exact Option.some.inj hs ▸ hok
  | exit p =>
    dsimp only [fileStep] at hs
    split_ifs at hs
    by_cases hpi : p = initproc
    · unfold Ftable.exit at hs
      rw [if_pos hpi] at hs
      cases hs
    · obtain ⟨t, ht, hok⟩ := h.exit hpi
      rw [ht] at hs
      exact Option.some.inj hs ▸ hok
  | exec p =>
    dsimp only [fileStep] at hs
    split_ifs at hs
    exact Option.some.inj hs ▸ h
  | reap p =>
    dsimp only [fileStep] at hs
    split_ifs at hs with hz
    -- a zombie has no descriptors left
    exact Option.some.inj hs ▸ FtInv.setLife h p .unused fun _ => h.dead p (by simp [hz])

theorem FileReachable.ftOk {s : Ftable} (h : FileReachable s) : FtOk s :=
  LTS.Reachable.inv ftOk_init (fun _ _ _ hs e => hs.step e) h

/-- `ref` stays within `0 ..= NPROC * NOFILE`: the `int` neither overflows nor goes negative. -/
theorem FtOk.ref_le {s : Ftable} (h : FtOk s) (f : Fin NFILE) : (s.file f).ref ≤ NPROC * NOFILE := by
  rw [h.ref_eq f, List.count_nil, Nat.add_zero]
  exact slots_le s.ofile f

/-- Over every sequence of `open`, `dup`, `close`, `pipe`, `fork`, `exit` and `exec`, error paths
included: each entry's `ref` is the number of descriptors holding it, so it is `0` just when no
descriptor does; a pipe's `readopen` (`writeopen`) is set just when an open entry is its read
(write) end; a pipe has been `kfree`d at most once, and is just when no open end is left; and
each inode reference `sys_open` put into a file is held by an open entry or was given back by
exactly one `iput`. -/
theorem ftable_refs_exact {s : Ftable} (h : FileReachable s) :
    (∀ f, (s.file f).ref = slots s.ofile f) ∧
    (∀ f, (s.file f).ref = 0 ↔ ∀ p fd, s.ofile p fd ≠ some f) ∧
    (∀ pg pi, s.pipes pg = some pi →
      (pi.readopen = true ↔ ∃ f, (s.file f).endOf = some (pg, false)) ∧
      (pi.writeopen = true ↔ ∃ f, (s.file f).endOf = some (pg, true))) ∧
    s.kfreed.Nodup ∧
    (∀ pg, pg ∈ s.kfreed ↔ pg < s.npipes ∧ ∀ f w, (s.file f).endOf ≠ some (pg, w)) ∧
    ∀ ip, s.opened.count ip = held s.file ip + s.iputs.count ip := by
  have hok := h.ftOk
  have href : ∀ f, (s.file f).ref = slots s.ofile f := fun f => by
    rw [hok.ref_eq f, List.count_nil, Nat.add_zero]
  refine ⟨href, fun f => by rw [href f]; exact slots_eq_zero,
    fun pg pi hpi => ⟨hok.pipes.flags pg pi false hpi, hok.pipes.flags pg pi true hpi⟩, hok.pipes.nodup,
    fun pg => ?_, hok.inodes⟩
  rw [hok.pipes.kfreed pg]
  refine and_congr_right fun _ => ⟨fun hn f w hf => hok.pipes.end_live f pg w hf hn, fun hno => ?_⟩
  -- an allocated pipe has an open end
  cases hp : s.pipes pg with
  | none => rfl
  | some pi =>
    obtain ⟨w, hw⟩ := hok.pipes.some_open pg pi hp
    obtain ⟨f, hf⟩ := (hok.pipes.flags pg pi w hp).mp hw
    exact absurd hf (hno f w)

/-- `initproc` opens a file, duplicates the descriptor and forks: the entry has four references,
one for each descriptor holding it. -/
theorem ftable_refs_exact_fork :
    ∃ s, FileReachable s ∧ (s.file ⟨0, by decide⟩).ref = 4 ∧
      (s.file ⟨0, by decide⟩).ref = slots s.ofile ⟨0, by decide⟩ := by
  obtain ⟨s, hs, h4⟩ : ∃ s, FileReachable s ∧ (s.file ⟨0, by decide⟩).ref = 4 :=
    LTS.exists_reachable_of_run
      [.sysOpen initproc (some (1, false)) O_RDWR, .sysDup initproc 0, .fork initproc true] (by decide)
  exact ⟨s, hs, h4, (ftable_refs_exact hs).1 ⟨0, by decide⟩⟩

end Xv6Sched
