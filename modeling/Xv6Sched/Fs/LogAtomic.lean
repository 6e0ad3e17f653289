import Xv6Sched.Fs.Log

/-!
# Xv6Sched.Fs.LogAtomic — a committed transaction survives any crash whole or not at all

`installed d bs cache` is what a transaction is for: the disk `d` with the blocks `bs` holding
their new contents.  The home blocks of a transaction lie outside the log (`Log.Outside`), and
`log_write` keeps the in-memory header one the log can hold (`Log.HeadOk`).

Recovery is read off one lemma, `recover_spec`: it installs the blocks the header lists from
their log blocks, empties the header, and changes nothing else.  A crash in `commit` leaves one of
three disks: `Before` the header write, `Committed` (the header lists the transaction, whose log
blocks are written, and each home block is old or new), or `After` the header is cleared.
`Committed` is kept by every crash of `install_trans`, and finishing the installs and clearing
the header gives `After`; so recovery sends `Before` to `Before` and both others to `After`.
-/

namespace Xv6Sched

open Crash

/-- Block `a` is none of the log's blocks `[start, start + size)`. -/
def Log.Outside (lg : Log) (a : Nat) : Prop := a < lg.start ∨ lg.start + lg.size ≤ a

instance (lg : Log) (a : Nat) : Decidable (lg.Outside a) := inferInstanceAs (Decidable (_ ∨ _))

/-- The disk `d` with the blocks `bs` holding their new contents `cache`. -/
def installed {α : Type} (d : Nat → α) (bs : List Nat) (cache : Nat → α) (a : Nat) : α :=
  if a ∈ bs then cache a else d a

/-- A header the log `lg` can hold: distinct blocks outside the log, no more of them than the
log has blocks after its header. -/
structure Log.HeadOk (lg : Log) (l : List Nat) : Prop where
  size_pos : 0 < lg.size
  nodup : l.Nodup
  outside : ∀ b ∈ l, lg.Outside b
  fits : l.length ≤ lg.size - 1

/-! ### The log's blocks -/

section Blocks

variable {lg : Log} {l : List Nat}

theorem Log.HeadOk.nil (h : 0 < lg.size) : lg.HeadOk [] :=
  ⟨h, List.nodup_nil, by simp, by simp⟩

theorem Log.ne_start_of_outside (h : 0 < lg.size) {a : Nat} (ha : lg.Outside a) :
    a ≠ lg.start := by
  unfold Log.Outside at ha
  omega

theorem Log.not_outside_start (h : 0 < lg.size) : ¬ lg.Outside lg.start :=
  fun ha => Log.ne_start_of_outside h ha rfl

theorem Log.HeadOk.ne_start (h : lg.HeadOk l) {b : Nat} (hb : b ∈ l) : b ≠ lg.start :=
  Log.ne_start_of_outside h.size_pos (h.outside b hb)

/-- Log block `tail + 1` of a header lies in the log, past the header block. -/
theorem Log.HeadOk.logBlock (h : lg.HeadOk l) (tail : Fin l.length) :
    ¬ lg.Outside (lg.start + tail + 1) ∧ lg.start + tail + 1 ≠ lg.start := by
  have := h.fits
  have := tail.isLt
  unfold Log.Outside
  omega

/-- A log block of a header is none of the header's blocks. -/
theorem Log.HeadOk.logBlock_not_mem (h : lg.HeadOk l) (tail : Fin l.length) :
    lg.start + tail + 1 ∉ l :=
  fun hm => (h.logBlock tail).1 (h.outside _ hm)

end Blocks

/-! ### `log_write` -/

section LogWrite

theorem absorb_eq (lh : List Nat) (b : Nat) : absorb lh b = if b ∈ lh then lh else lh ++ [b] := by
  unfold absorb
  dsimp only
  by_cases hb : b ∈ lh
  · have hlt := List.idxOf_lt_length_iff.mpr hb
    -- the entry found is `b` already, so setting it changes nothing
    have e := List.set_getElem_self hlt
    rw [List.getElem_idxOf hlt] at e
    rw [if_neg (by omega), if_pos hb, e]
  · rw [if_pos (List.idxOf_eq_length_iff.mpr hb), if_neg hb]

theorem mem_absorb {lh : List Nat} {b a : Nat} : a ∈ absorb lh b ↔ a ∈ lh ∨ a = b := by
  rw [absorb_eq]
  split_ifs with hb
  · constructor
    · exact Or.inl
    · rintro (ha | rfl)
      · exact ha
      · exact hb
  · simp

theorem nodup_absorb {lh : List Nat} (h : lh.Nodup) (b : Nat) : (absorb lh b).Nodup := by
  rw [absorb_eq]
  split_ifs with hb
  · exact h
  · exact List.nodup_append.mpr ⟨h, List.nodup_singleton b, fun a ha a' ha' e => by
      rw [List.mem_singleton] at ha'
      exact hb (ha' ▸ e ▸ ha)⟩

theorem length_absorb_le (lh : List Nat) (b : Nat) : (absorb lh b).length ≤ lh.length + 1 := by
  rw [absorb_eq]
  split_ifs <;> simp

/-- What a `log_write` that does not panic does: it runs inside a transaction with room left in
the log, and absorbs the block into the header. -/
theorem logWrite_spec {lg lg' : Log} {b : Nat} (h : logWrite lg b = some lg') :
    lg.lh.length < LOGSIZE ∧ lg.lh.length < lg.size - 1 ∧ 1 ≤ lg.outstanding ∧
      lg' = { lg with lh := absorb lg.lh b } := by
  unfold logWrite at h
  split_ifs at h with h1 h2
  simp only [Option.some.injEq] at h
  exact ⟨by omega, by omega, by omega, h.symm⟩

theorem Log.HeadOk.logWrite {lg lg' : Log} {b : Nat} (h : lg.HeadOk lg.lh) (hb : lg.Outside b)
    (hw : logWrite lg b = some lg') : lg'.HeadOk lg'.lh := by
  obtain ⟨-, hfit, -, rfl⟩ := logWrite_spec hw
  have hlen := length_absorb_le lg.lh b
  refine ⟨h.size_pos, nodup_absorb h.nodup b, fun a ha => ?_, by dsimp only; omega⟩
  rcases mem_absorb.mp ha with ha | rfl
  · exact h.outside a ha
  · exact hb

/-- **Run lemma** for the `log_write`s of a transaction, none of which panics: the header
holds, once each, the blocks it held and the blocks written, and the log can hold it. -/
theorem logWrites_spec {bs : List Nat} :
    ∀ {lg lg' : Log}, bs.foldlM logWrite lg = some lg' → lg.HeadOk lg.lh →
      (∀ b ∈ bs, lg.Outside b) →
      lg'.start = lg.start ∧ lg'.size = lg.size ∧ lg'.HeadOk lg'.lh ∧
        ∀ a, a ∈ lg'.lh ↔ a ∈ lg.lh ∨ a ∈ bs := by
  induction bs with
  | nil =>
    intro lg lg' h hok _
    cases h
    exact ⟨rfl, rfl, hok, fun a => by simp⟩
  | cons b bs ih =>
    intro lg lg' h hok hout
    simp only [List.foldlM_cons, Option.bind_eq_bind, Option.bind_eq_some_iff] at h
    obtain ⟨lg1, h1, h2⟩ := h
    have hok1 := hok.logWrite (hout b List.mem_cons_self) h1
    obtain ⟨-, -, -, rfl⟩ := logWrite_spec h1
    obtain ⟨hs, hz, hok', hmem⟩ :=
      ih h2 hok1 fun b' hb' => hout b' (List.mem_cons_of_mem b hb')
    refine ⟨hs, hz, hok', fun a => ?_⟩
    rw [hmem, mem_absorb, List.mem_cons]
    tauto

end LogWrite

/-! ### The writes each function issues -/

section Writes

variable {α : Type} (C : HeadCodec α) {lg : Log} {l : List Nat}

/-- The blocks `install_trans` writes are the header's. -/
theorem installWrites_fst (l : List Nat) (f : Fin l.length → α) :
    ((List.finRange l.length).map fun tail => (l.get tail, f tail)).map Prod.fst = l := by
  rw [List.map_map]
  exact List.map_get_finRange l

theorem trace_writeLog (cache d : Nat → α) :
    trace d (writeLog lg cache) =
      (List.finRange lg.lh.length).map fun (tail : Fin lg.lh.length) =>
        (lg.start + tail + 1, cache (lg.lh.get tail)) := by
  -- `write_log` reads the cache, not the disk
  have hread : ∀ s ∈ writeLog lg cache, ∀ d1 d2 : Nat → α, (∀ a, False → d1 a = d2 a) →
      s d1 = s d2 := by
    intro s hs d1 d2 _
    obtain ⟨tail, -, rfl⟩ := List.mem_map.mp hs
    rfl
  rw [trace_eq_map (fun _ => False) hread (fun _ _ _ h => h), writeLog, List.map_map]
  rfl

/-- `write_log` writes only log blocks past the header block. -/
theorem not_mem_writeLog (hl : lg.HeadOk lg.lh) (cache d : Nat → α) {a : Nat}
    (ha : lg.Outside a ∨ a = lg.start) : a ∉ (trace d (writeLog lg cache)).map Prod.fst := by
  rw [trace_writeLog, List.map_map, List.mem_map]
  rintro ⟨tail, -, e⟩
  simp only [Function.comp_apply] at e
  have hb := hl.logBlock tail
  rcases ha with ha | rfl
  · rw [← e] at ha
    exact hb.1 ha
  · exact hb.2 e

theorem trace_installTrans (hl : lg.HeadOk l) (d : Nat → α) :
    trace d (installTrans lg.start l) =
      (List.finRange l.length).map fun tail => (l.get tail, d (lg.start + tail + 1)) := by
  -- `install_trans` reads log blocks and writes blocks outside the log
  have hread : ∀ s ∈ (installTrans lg.start l : Prog α), ∀ d1 d2 : Nat → α,
      (∀ a, ¬ lg.Outside a → d1 a = d2 a) → s d1 = s d2 := by
    intro s hs d1 d2 h
    obtain ⟨tail, -, rfl⟩ := List.mem_map.mp hs
    show (l.get tail, d1 (lg.start + tail + 1)) = (l.get tail, d2 (lg.start + tail + 1))
    rw [h _ (hl.logBlock tail).1]
  have hwrite : ∀ s ∈ (installTrans lg.start l : Prog α), ∀ d : Nat → α,
      ¬ ¬ lg.Outside (s d).1 := by
    intro s hs d
    obtain ⟨tail, -, rfl⟩ := List.mem_map.mp hs
    exact not_not_intro (hl.outside _ (List.get_mem l tail))
  rw [trace_eq_map (fun a => ¬ lg.Outside a) hread hwrite, installTrans, List.map_map]
  rfl

/-- After `install_trans` on `d`, a block of the header holds what its log block held. -/
theorem installed_of_mem (hl : lg.HeadOk l) (d : Nat → α) (tail : Fin l.length) :
    run d (installTrans lg.start l) (l.get tail) = d (lg.start + tail + 1) := by
  rw [run, trace_installTrans hl]
  apply applyWrites_of_mem
  · rw [installWrites_fst]
    exact hl.nodup
  · exact List.mem_map_of_mem (List.mem_finRange tail)

theorem installed_of_not_mem (hl : lg.HeadOk l) (d : Nat → α) {a : Nat} (ha : a ∉ l) :
    run d (installTrans lg.start l) a = d a := by
  rw [run, trace_installTrans hl]
  exact applyWrites_of_not_mem (by rwa [installWrites_fst]) d

theorem recoverFromLog_eq {e : Nat → α} (hr : readHead C lg.start e = l) :
    recoverFromLog C lg.start e = installTrans lg.start l ++ writeHead C lg.start [] := by
  rw [recoverFromLog, hr]

/-- `install_trans` of `l`, then `write_head` of the empty header, run on any disk. -/
theorem run_install_clear (hl : lg.HeadOk l) (e : Nat → α) :
    run e (installTrans lg.start l ++ writeHead C lg.start []) =
      Function.update (run e (installTrans lg.start l)) lg.start (C.write [] (e lg.start)) := by
  rw [run_append, writeHead, run_singleton]
  dsimp only
  -- `install_trans` leaves the header block alone
  rw [installed_of_not_mem hl e fun h => hl.ne_start h rfl]

theorem trace_install_clear (hl : lg.HeadOk l) (e : Nat → α) :
    trace e (installTrans lg.start l ++ writeHead C lg.start []) =
      (List.finRange l.length).map (fun tail => (l.get tail, e (lg.start + tail + 1))) ++
        [(lg.start, C.write [] (e lg.start))] := by
  rw [trace_append, trace_installTrans hl]
  show _ ++ [(lg.start, C.write [] (run e (installTrans lg.start l) lg.start))] = _
  rw [installed_of_not_mem hl e fun h => hl.ne_start h rfl]

end Writes

/-! ### Recovery -/

section Recover

variable {α : Type} (C : HeadCodec α) {lg : Log} {l : List Nat} {e : Nat → α}

/-- **`recover_from_log`** on a disk whose header is `l`: each block of `l` gets the contents of
its log block, the header is emptied, and no other block changes. -/
theorem recover_spec (hl : lg.HeadOk l) (hr : readHead C lg.start e = l) :
    readHead C lg.start (run e (recoverFromLog C lg.start e)) = [] ∧
      (∀ tail : Fin l.length,
        run e (recoverFromLog C lg.start e) (l.get tail) = e (lg.start + tail + 1)) ∧
      ∀ a, a ∉ l → a ≠ lg.start → run e (recoverFromLog C lg.start e) a = e a := by
  rw [recoverFromLog_eq C hr, run_install_clear C hl]
  refine ⟨?_, fun tail => ?_, fun a ha hs => ?_⟩
  · rw [readHead, Function.update_self, C.read_write]
  · rw [Function.update_of_ne (hl.ne_start (List.get_mem l tail)), installed_of_mem hl]
  · rw [Function.update_of_ne hs, installed_of_not_mem hl e ha]

/-- Recovery of a disk whose header is empty rewrites the header block only. -/
theorem recover_of_empty (hpos : 0 < lg.size) (hr : readHead C lg.start e = []) :
    readHead C lg.start (run e (recoverFromLog C lg.start e)) = [] ∧
      ∀ a, lg.Outside a → run e (recoverFromLog C lg.start e) a = e a := by
  obtain ⟨h1, -, h3⟩ := recover_spec C (Log.HeadOk.nil hpos) hr
  exact ⟨h1, fun a ha => h3 a List.not_mem_nil (Log.ne_start_of_outside hpos ha)⟩

/-- **Recovery is idempotent.**  A crash during `recover_from_log`, then `recover_from_log` of
what it left, ends where one recovery ends. -/
theorem recover_crash_recover (hl : lg.HeadOk l) (hr : readHead C lg.start e = l) (k : Nat) :
    run (crashAt e (recoverFromLog C lg.start e) k)
        (recoverFromLog C lg.start (crashAt e (recoverFromLog C lg.start e) k)) =
      run e (recoverFromLog C lg.start e) := by
  have hpos := hl.size_pos
  rw [recoverFromLog_eq C hr]
  by_cases hk : k ≤ l.length
  · -- a crash among the installs: the log is as it was, and recovery starts over
    have hlen : (installTrans lg.start l : Prog α).length = l.length := by simp [installTrans]
    have hcr : crashAt e (installTrans lg.start l ++ writeHead C lg.start []) k =
        crashAt e (installTrans lg.start l) k := by
      rw [crashAt_append, if_pos (by rw [hlen]; exact hk)]
    have hin : ∀ a, ¬ lg.Outside a →
        crashAt e (installTrans lg.start l ++ writeHead C lg.start []) k a = e a := by
      intro a ha
      rw [hcr]
      apply crashAt_of_not_mem
      rw [trace_installTrans hl, installWrites_fst]
      exact fun hm => ha (hl.outside a hm)
    have hr' : readHead C lg.start
        (crashAt e (installTrans lg.start l ++ writeHead C lg.start []) k) = l := by
      rw [readHead, hin _ (Log.not_outside_start hpos)]
      exact hr
    rw [recoverFromLog_eq C hr']
    apply run_crashAt
    rw [trace_install_clear C hl, trace_install_clear C hl, hin _ (Log.not_outside_start hpos)]
    simp only [fun tail : Fin l.length => hin _ (hl.logBlock tail).1]
  · -- a crash after the header was cleared: recovery rewrites the cleared header as it is
    rw [crashAt_of_length_le (by simp [installTrans, writeHead]; omega)]
    have hr0 := (recover_spec C hl hr).1
    rw [recoverFromLog_eq C hr] at hr0
    rw [recoverFromLog_eq C hr0, run_install_clear C (Log.HeadOk.nil hpos),
      run_install_clear C hl]
    simp only [Function.update_self, C.write_write]
    apply Function.update_eq_self_iff.mpr
    simp [installTrans, run, trace]

end Recover

/-! ### The crashes of `commit` -/

namespace CommitCrash

variable {α : Type}

/-- Before the commit point: the header empty, the blocks outside the log as in `d`. -/
def Before (C : HeadCodec α) (lg : Log) (d e : Nat → α) : Prop :=
  readHead C lg.start e = [] ∧ ∀ a, lg.Outside a → e a = d a

/-- From the commit point until the header is cleared: the header lists the transaction, whose
log blocks hold the new contents, and each block outside the log holds its old contents or its
new ones. -/
def Committed (C : HeadCodec α) (lg : Log) (cache d e : Nat → α) : Prop :=
  readHead C lg.start e = lg.lh ∧
    (∀ tail : Fin lg.lh.length, e (lg.start + tail + 1) = cache (lg.lh.get tail)) ∧
    ∀ a, lg.Outside a → e a = d a ∨ (a ∈ lg.lh ∧ e a = cache a)

/-- Once the header is cleared: the header empty, the transaction installed. -/
def After (C : HeadCodec α) (lg : Log) (cache d e : Nat → α) : Prop :=
  readHead C lg.start e = [] ∧ ∀ a, lg.Outside a → e a = installed d lg.lh cache a

variable {C : HeadCodec α} {lg : Log} {cache d e : Nat → α}

theorem run_writeLog_of_not (hl : lg.HeadOk lg.lh) {a : Nat} (ha : lg.Outside a ∨ a = lg.start) :
    run d (writeLog lg cache) a = d a :=
  applyWrites_of_not_mem (not_mem_writeLog hl cache d ha) d

/-- After `write_log`, log block `tail + 1` holds the new contents of `block[tail]`. -/
theorem run_writeLog_logBlock (tail : Fin lg.lh.length) :
    run d (writeLog lg cache) (lg.start + tail + 1) = cache (lg.lh.get tail) := by
  rw [run, trace_writeLog]
  apply applyWrites_of_mem
  · -- the log blocks `start + tail + 1` are distinct
    rw [List.map_map]
    refine List.Nodup.map (fun t1 t2 h => ?_) (List.nodup_finRange _)
    simp only [Function.comp_apply] at h
    exact Fin.ext (by omega)
  · exact List.mem_map_of_mem (List.mem_finRange tail)

/-- The crashes of `write_log` leave the disk `Before`. -/
theorem before_writeLog (hl : lg.HeadOk lg.lh) (hclean : readHead C lg.start d = [])
    (k : Nat) : Before C lg d (crashAt d (writeLog lg cache) k) := by
  have h : ∀ a, lg.Outside a ∨ a = lg.start → crashAt d (writeLog lg cache) k a = d a :=
    fun a ha => crashAt_of_not_mem (not_mem_writeLog hl cache d ha) k
  refine ⟨?_, fun a ha => h a (Or.inl ha)⟩
  rw [readHead, h _ (Or.inr rfl)]
  exact hclean

/-- **The commit point.**  `write_log` run to its end, then `write_head`, leave the disk
`Committed`. -/
theorem committed_writeHead (hl : lg.HeadOk lg.lh) :
    Committed C lg cache d (run (run d (writeLog lg cache)) (writeHead C lg.start lg.lh)) := by
  rw [writeHead, run_singleton]
  dsimp only
  refine ⟨by rw [readHead, Function.update_self, C.read_write], fun tail => ?_,
    fun a ha => Or.inl ?_⟩
  · rw [Function.update_of_ne (hl.logBlock tail).2, run_writeLog_logBlock]
  · rw [Function.update_of_ne (Log.ne_start_of_outside hl.size_pos ha),
      run_writeLog_of_not hl (Or.inl ha)]

/-- Every crash of `install_trans` keeps the disk `Committed`. -/
theorem Committed.crashAt_install (h : Committed C lg cache d e) (hl : lg.HeadOk lg.lh)
    (j : Nat) : Committed C lg cache d (crashAt e (installTrans lg.start lg.lh) j) := by
  obtain ⟨hr, hlog, hout⟩ := h
  have hsame : ∀ a, a ∉ lg.lh → crashAt e (installTrans lg.start lg.lh) j a = e a :=
    fun a ha => crashAt_of_not_mem (by rwa [trace_installTrans hl, installWrites_fst]) j
  refine ⟨?_, fun tail => ?_, fun a ha => ?_⟩
  · rw [readHead, hsame _ fun hm => hl.ne_start hm rfl]
    exact hr
  · rw [hsame _ (hl.logBlock_not_mem tail)]
    exact hlog tail
  · rcases crashAt_mem_or e (installTrans lg.start lg.lh) j a with h | h
    · rw [h]
      exact hout a ha
    · -- an install reached `a`: a block of the transaction, which now holds its new contents
      rw [trace_installTrans hl, List.mem_map] at h
      obtain ⟨tail, -, ht⟩ := h
      simp only [Prod.mk.injEq] at ht
      refine Or.inr ⟨ht.1 ▸ List.get_mem _ _, ?_⟩
      rw [← ht.2, hlog tail, ht.1]

/-- Finishing the installs and clearing the header takes a `Committed` disk to `After`. -/
theorem Committed.finish (h : Committed C lg cache d e) (hl : lg.HeadOk lg.lh) :
    After C lg cache d (run e (installTrans lg.start lg.lh ++ writeHead C lg.start [])) := by
  obtain ⟨-, hlog, hout⟩ := h
  rw [run_install_clear C hl]
  refine ⟨by rw [readHead, Function.update_self, C.read_write], fun a ha => ?_⟩
  rw [Function.update_of_ne (Log.ne_start_of_outside hl.size_pos ha), installed]
  split_ifs with hm
  · obtain ⟨tail, rfl⟩ := List.mem_iff_get.mp hm
    rw [installed_of_mem hl, hlog tail]
  · rw [installed_of_not_mem hl e hm]
    rcases hout a ha with h | ⟨h, -⟩
    · exact h
    · exact absurd h hm

theorem Before.recover (h : Before C lg d e) (hpos : 0 < lg.size) :
    Before C lg d (run e (recoverFromLog C lg.start e)) := by
  obtain ⟨h1, h2⟩ := recover_of_empty C hpos h.1
  exact ⟨h1, fun a ha => (h2 a ha).trans (h.2 a ha)⟩

theorem After.recover (h : After C lg cache d e) (hpos : 0 < lg.size) :
    After C lg cache d (run e (recoverFromLog C lg.start e)) := by
  obtain ⟨h1, h2⟩ := recover_of_empty C hpos h.1
  exact ⟨h1, fun a ha => (h2 a ha).trans (h.2 a ha)⟩

/-- Recovery of a `Committed` disk finishes the commit. -/
theorem Committed.recover (h : Committed C lg cache d e) (hl : lg.HeadOk lg.lh) :
    After C lg cache d (run e (recoverFromLog C lg.start e)) := by
  rw [recoverFromLog_eq C h.1]
  exact h.finish hl

/-- **The crashes of `commit`**: before the header write the disk is `Before`; after it,
`Committed` or `After`. -/
theorem commit_crash (cache : Nat → α) (hl : lg.HeadOk lg.lh) (hclean : readHead C lg.start d = [])
    (k : Nat) :
    (k ≤ lg.lh.length → Before C lg d (crashAt d (commit C lg cache) k)) ∧
      (lg.lh.length < k → Committed C lg cache d (crashAt d (commit C lg cache) k) ∨
        After C lg cache d (crashAt d (commit C lg cache) k)) := by
  by_cases hn : lg.lh.length > 0
  swap
  · -- an empty transaction writes nothing
    have hnil : lg.lh = [] := List.eq_nil_of_length_eq_zero (by omega)
    have h0 : crashAt d (commit C lg cache) k = d := by simp [commit, hn, crashAt, trace]
    rw [h0]
    exact ⟨fun _ => ⟨hclean, fun _ _ => rfl⟩,
      fun _ => Or.inr ⟨hclean, fun a _ => by simp [installed, hnil]⟩⟩
  have hW : (writeLog lg cache).length = lg.lh.length := by simp [writeLog]
  have hH : (writeHead C lg.start lg.lh).length = 1 := rfl
  have hI : (installTrans lg.start lg.lh : Prog α).length = lg.lh.length := by
    simp [installTrans]
  rw [commit, if_pos hn, List.append_assoc, List.append_assoc, crashAt_append, hW]
  refine ⟨fun hk => ?_, fun hk => ?_⟩
  · rw [if_pos hk]
    exact before_writeLog hl hclean k
  rw [if_neg (by omega), crashAt_append, hH]
  split
  · -- the header write is the last write to reach the disk
    left
    rw [crashAt_of_length_le (by rw [hH]; omega)]
    exact committed_writeHead hl
  rw [crashAt_append, hI]
  split
  · exact Or.inl ((committed_writeHead hl).crashAt_install hl _)
  · right
    rw [crashAt_of_length_le (by simp [writeHead]; omega), ← run_append]
    exact (committed_writeHead hl).finish hl

/-- A crash in `commit` of the log `lg`, then recovery: the header empty, the blocks outside
the log old when the crash came before the header write and new after it, and recovery
idempotent. -/
theorem commit_crash_recover (cache : Nat → α) (hl : lg.HeadOk lg.lh)
    (hclean : readHead C lg.start d = []) (k : Nat) :
    let dc := crashAt d (commit C lg cache) k
    let dr := run dc (recoverFromLog C lg.start dc)
    readHead C lg.start dr = [] ∧
      (k ≤ lg.lh.length → ∀ a, lg.Outside a → dr a = d a) ∧
      (lg.lh.length < k → ∀ a, lg.Outside a → dr a = installed d lg.lh cache a) ∧
      ∀ k', run (crashAt dc (recoverFromLog C lg.start dc) k')
        (recoverFromLog C lg.start (crashAt dc (recoverFromLog C lg.start dc) k')) = dr := by
  intro dc dr
  obtain ⟨hb, ha⟩ := commit_crash cache hl hclean k
  have hpos := hl.size_pos
  by_cases hk : k ≤ lg.lh.length
  · have hB := (hb hk).recover hpos
    exact ⟨hB.1, fun _ => hB.2, fun h => absurd h (by omega),
      recover_crash_recover C (Log.HeadOk.nil hpos) (hb hk).1⟩
  rcases ha (by omega) with hc | hc
  · have hA := hc.recover hl
    exact ⟨hA.1, fun h => absurd h hk, fun _ => hA.2, recover_crash_recover C hl hc.1⟩
  · have hA := hc.recover hpos
    exact ⟨hA.1, fun h => absurd h hk, fun _ => hA.2,
      recover_crash_recover C (Log.HeadOk.nil hpos) hc.1⟩

end CommitCrash

/-- **Atomic commit.**  A transaction on a log whose header is empty, on disk and in memory: any
blocks outside the log passed to `log_write` (repeats absorbed), with any new contents `cache`.
Cut `commit` after any number `k` of its block writes and run `recover_from_log`: the header is
empty, and every block outside the log holds its old contents when the cut came before the
header write, and the transaction's contents (old ones for blocks it did not write) after it.
A second cut, during that recovery, followed by another recovery, ends in the same disk. -/
theorem log_commit_atomic {α : Type} (C : HeadCodec α) (lg lg' : Log) (bs : List Nat)
    (cache d : Nat → α) (hpos : 0 < lg.size) (hlh : lg.lh = [])
    (hw : bs.foldlM logWrite lg = some lg') (hhome : ∀ b ∈ bs, lg.Outside b)
    (hclean : readHead C lg.start d = []) (k : Nat) :
    let dc := crashAt d (commit C lg' cache) k
    let dr := run dc (recoverFromLog C lg.start dc)
    readHead C lg.start dr = [] ∧
      (k ≤ lg'.lh.length → ∀ a, lg.Outside a → dr a = d a) ∧
      (lg'.lh.length < k → ∀ a, lg.Outside a → dr a = installed d bs cache a) ∧
      ∀ k', run (crashAt dc (recoverFromLog C lg.start dc) k')
        (recoverFromLog C lg.start (crashAt dc (recoverFromLog C lg.start dc) k')) = dr := by
  have hok : lg.HeadOk lg.lh := by
    rw [hlh]
    exact Log.HeadOk.nil hpos
  obtain ⟨hs, hz, hok', hmem⟩ := logWrites_spec hw hok hhome
  -- the log after the `log_write`s has the same blocks, and its header lists `bs`
  have hO : lg'.Outside = lg.Outside := by
    funext a
    unfold Log.Outside
    rw [hs, hz]
  have hI : installed d lg'.lh cache = installed d bs cache := by
    funext a
    simp only [installed, hmem, hlh, List.not_mem_nil, false_or]
  have h := CommitCrash.commit_crash_recover cache hok' (by rw [hs]; exact hclean) k
  rw [hO, hI, hs] at h
  exact h

theorem log_commit_atomic_two_blocks :
    let lg : Log := ⟨2, 30, 1, false, []⟩
    let lg' : Log := ⟨2, 30, 1, false, [40, 41]⟩
    let d : Nat → Nat → Nat := fun _ _ => 0
    let cache : Nat → Nat → Nat := fun _ _ => 7
    [40, 41, 40].foldlM logWrite lg = some lg' ∧ readHead wordHead lg.start d = [] ∧
      ∀ a, lg.Outside a →
        run (crashAt d (commit wordHead lg' cache) 3)
            (recoverFromLog wordHead lg.start (crashAt d (commit wordHead lg' cache) 3)) a =
          installed d [40, 41, 40] cache a := by
  intro lg lg' d cache
  have hw : [40, 41, 40].foldlM logWrite lg = some lg' := by decide
  have hc : readHead wordHead lg.start d = [] := rfl
  exact ⟨hw, hc, (log_commit_atomic wordHead lg lg' [40, 41, 40] cache d (by decide) rfl hw
    (by decide) hc 3).2.2.1 (by decide)⟩

end Xv6Sched
