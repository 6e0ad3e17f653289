import Xv6Sched.Fs.LogAtomic
import Xv6Sched.Fs.Bio

/-!
# Xv6Sched.Fs.LogPin — `log_write`'s `bpin` and `install_trans`'s `bunpin`

`log_write(b)` absorbs `b->blockno` into the header (`logWrite`) and pins `b` in the cache exactly
when the absorption loop ran off the end of the header, that is when the block was not logged
yet (`logWriteBuf`).  Over a transaction's `log_write` calls from the empty header, the header
lists the block numbers written once each, in the order of their first write, and each buffer
written is pinned once (`log_write_pins_once`); `write_log` then copies each logged block once, and
the `bunpin` of `install_trans(0)` on the cached buffer of each logged block gives every buffer back
the reference count it had before the transaction.
-/

namespace Xv6Sched

open Crash

/-- The block number of buffer `b`, as the header records it. -/
def Bcache.blk (bc : Bcache) (b : Fin NBUF) : Nat := (bc.buf b).blockno.toNat

/-- `log_write(b)` on buffer `b` of the cache: the header after the absorption loop, and the cache
after `bpin(b)` when the loop's index `i` reached `log.lh.n`; `none` is one of the panics. -/
def logWriteBuf (lg : Log) (bc : Bcache) (b : Fin NBUF) : Option (Log × Bcache) :=
  (logWrite lg (bc.blk b)).map fun lg' =>
    (lg', if lg.lh.idxOf (bc.blk b) = lg.lh.length then bpin bc b else bc)

/-- The `log_write` calls of a transaction on the buffers `bufs`, in order. -/
def logWriteBufs (lg : Log) (bc : Bcache) (bufs : List (Fin NBUF)) : Option (Log × Bcache) :=
  bufs.foldlM (fun s b => logWriteBuf s.1 s.2 b) (lg, bc)

/-- The `bunpin(dbuf)` calls of `install_trans(0)` over the header `lh`, where `bufOf a` is the
buffer that `bread` returns for block `a`. -/
def installUnpin (bc : Bcache) (bufOf : Nat → Fin NBUF) (lh : List Nat) : Bcache :=
  lh.foldl (fun bc a => bunpin bc (bufOf a)) bc

/-- The buffer `v` with one more reference. -/
def Buf.pinned (v : Buf) : Buf := { v with refcnt := v.refcnt + 1 }

section Pins

variable {bc : Bcache} {b b' : Fin NBUF}

theorem bpin_buf : (bpin bc b).buf b' = if b' = b then (bc.buf b).pinned else bc.buf b' := by
  unfold bpin Buf.pinned
  by_cases h : b' = b
  · subst h
    simp
  · simp [h]

theorem bunpin_buf : (bunpin bc b).buf b' =
    if b' = b then { bc.buf b with refcnt := (bc.buf b).refcnt - 1 } else bc.buf b' := by
  unfold bunpin
  by_cases h : b' = b
  · subst h
    simp
  · simp [h]

@[simp] theorem blk_bpin : (bpin bc b).blk b' = bc.blk b' := by
  unfold Bcache.blk
  rw [bpin_buf]
  split_ifs with h
  · subst h
    rfl
  · rfl

/-- What a `log_write` that does not panic does: it absorbs the block, and pins the buffer when
the block was not logged yet. -/
theorem logWriteBuf_spec {lg lg' : Log} {bc' : Bcache} (h : logWriteBuf lg bc b = some (lg', bc')) :
    lg' = { lg with lh := absorb lg.lh (bc.blk b) } ∧ bc' = if bc.blk b ∈ lg.lh then bc else bpin bc b := by
  unfold logWriteBuf at h
  obtain ⟨lg'', hw, he⟩ := Option.map_eq_some_iff.mp h
  obtain ⟨-, -, -, rfl⟩ := logWrite_spec hw
  obtain ⟨rfl, rfl⟩ := Prod.mk.inj he
  refine ⟨rfl, ?_⟩
  by_cases hm : bc.blk b ∈ lg.lh
  · rw [if_neg (fun e => List.idxOf_eq_length_iff.mp e hm), if_pos hm]
  · rw [if_pos (List.idxOf_eq_length_iff.mpr hm), if_neg hm]

end Pins

/-! ### The header over a transaction -/

section Header

variable {bs : List Nat}

theorem mem_foldl_absorb {a : Nat} : ∀ {lh : List Nat}, a ∈ bs.foldl absorb lh ↔ a ∈ lh ∨ a ∈ bs := by
  induction bs with
  | nil => simp
  | cons b bs ih =>
    intro lh
    rw [List.foldl_cons, ih, mem_absorb, List.mem_cons]
    tauto

theorem nodup_foldl_absorb : ∀ {lh : List Nat}, lh.Nodup → (bs.foldl absorb lh).Nodup := by
  induction bs with
  | nil => exact id
  | cons b bs ih => exact fun h => ih (nodup_absorb h b)

/-- From the empty header, the blocks stand in the order of their first write.  The induction
adds one write at the end: a block already logged leaves the header as it is, a new one goes
last. -/
theorem pairwise_foldl_absorb : (bs.foldl absorb []).Pairwise fun a a' => bs.idxOf a < bs.idxOf a' := by
  induction bs using List.reverseRecOn with
  | nil => exact .nil
  | append_singleton bs b ih =>
    rw [List.foldl_append, List.foldl_cons, List.foldl_nil, absorb_eq]
    -- every logged block was written before `b`, and keeps its position
    have hpos : ∀ a ∈ bs.foldl absorb [], (bs ++ [b]).idxOf a = bs.idxOf a := fun a ha =>
      List.idxOf_append_of_mem (by simpa [mem_foldl_absorb] using ha)
    split_ifs with hb
    · exact ih.imp_of_mem fun ha ha' hlt => by rw [hpos _ ha, hpos _ ha']; exact hlt
    · have hnew : b ∉ bs := by simpa [mem_foldl_absorb] using hb
      refine List.pairwise_append.mpr ⟨ih.imp_of_mem fun ha ha' hlt => ?_, List.pairwise_singleton _ b, fun a ha b' hb' => ?_⟩
      · rw [hpos _ ha, hpos _ ha']
        exact hlt
      · rw [List.mem_singleton] at hb'
        subst hb'
        have ha' : a ∈ bs := by simpa [mem_foldl_absorb] using ha
        rw [hpos _ ha, List.idxOf_append, if_neg hnew, List.idxOf_cons_self]
        have := List.idxOf_lt_length_iff.mpr ha'
        omega

end Header

section Transaction

variable {lg lg' : Log} {bc bc' : Bcache} {bufs : List (Fin NBUF)}

/-- From the empty header, after the calls on `bufs` the header is the absorption of their block
numbers, and the cache has each buffer of `bufs` pinned once more and every other buffer as it
was.  The induction adds one call at the end; distinct buffers of `bufs` carry distinct
blocks, so a buffer is pinned by its first call only. -/
theorem logWriteBufs_spec (hempty : lg.lh = []) (bufOf : Nat → Fin NBUF)
    (hbuf : ∀ b ∈ bufs, bufOf (bc.blk b) = b) :
    ∀ {lg' : Log} {bc' : Bcache}, logWriteBufs lg bc bufs = some (lg', bc') →
      lg'.lh = (bufs.map bc.blk).foldl absorb [] ∧ lg'.start = lg.start ∧
        ∀ b, bc'.buf b = if b ∈ bufs then (bc.buf b).pinned else bc.buf b := by
  induction bufs using List.reverseRecOn with
  | nil =>
    intro lg' bc' h
    obtain ⟨rfl, rfl⟩ := Prod.mk.inj (Option.some.inj h).symm
    simp [hempty]
  | append_singleton bufs b ih =>
    intro lg' bc' h
    unfold logWriteBufs at h
    rw [List.foldlM_append] at h
    obtain ⟨⟨lg₁, bc₁⟩, h₁, h₂⟩ := Option.bind_eq_some_iff.mp h
    obtain ⟨hl, hs, hc⟩ := ih (fun b hb => hbuf b (List.mem_append_left _ hb)) h₁
    have h₂' : logWriteBuf lg₁ bc₁ b = some (lg', bc') := by simpa using h₂
    obtain ⟨rfl, rfl⟩ := logWriteBuf_spec h₂'
    -- the block of `b` reads the same in the cache reached so far
    have hblk : bc₁.blk b = bc.blk b := by
      unfold Bcache.blk
      rw [hc b]
      split_ifs <;> rfl
    -- `b`'s block is logged iff `b` was written before
    have hmem : bc.blk b ∈ lg₁.lh ↔ b ∈ bufs := by
      rw [hl, mem_foldl_absorb, List.mem_map]
      constructor
      · rintro (h | ⟨b', hb', he⟩)
        · exact absurd h List.not_mem_nil
        · have e1 := hbuf b' (List.mem_append_left _ hb')
          have e2 := hbuf b (List.mem_append_right _ (List.mem_singleton_self b))
          rw [he] at e1
          exact e2 ▸ e1 ▸ hb'
      · intro hb
        exact .inr ⟨b, hb, rfl⟩
    refine ⟨by rw [List.map_append, List.foldl_append, hblk, hl]; rfl, hs, fun x => ?_⟩
    rw [hblk]
    by_cases hb : b ∈ bufs
    · rw [if_pos (hmem.mpr hb), hc x]
      simp only [List.mem_append, List.mem_singleton]
      by_cases hx : x = b
      · subst hx
        simp [hb]
      · simp [hx]
    · rw [if_neg (fun h => hb (hmem.mp h)), bpin_buf, hc x, hc b]
      simp only [List.mem_append, List.mem_singleton]
      by_cases hx : x = b
      · subst hx
        simp [hb]
      · simp [hx]

/-- The `bunpin`s of `install_trans(0)` over a header whose blocks are cached in distinct buffers
take one reference off each of those buffers and leave the others. -/
theorem installUnpin_buf (bufOf : Nat → Fin NBUF) :
    ∀ {lh : List Nat} {bc : Bcache}, lh.Nodup → (∀ a ∈ lh, ∀ a' ∈ lh, bufOf a = bufOf a' → a = a') →
      ∀ x, (installUnpin bc bufOf lh).buf x =
        if x ∈ lh.map bufOf then { bc.buf x with refcnt := (bc.buf x).refcnt - 1 } else bc.buf x
  | [], _, _, _, x => by simp [installUnpin]
  | a :: lh, bc, hnd, hinj, x => by
    obtain ⟨ha, hnd'⟩ := List.nodup_cons.mp hnd
    have hinj' : ∀ c ∈ lh, ∀ c' ∈ lh, bufOf c = bufOf c' → c = c' := fun c hc c' hc' =>
      hinj c (List.mem_cons_of_mem _ hc) c' (List.mem_cons_of_mem _ hc')
    -- the buffer of `a` is not the buffer of any later block
    have hfresh : bufOf a ∉ lh.map bufOf := fun h => by
      obtain ⟨c, hc, he⟩ := List.mem_map.mp h
      exact ha (hinj c (List.mem_cons_of_mem _ hc) a List.mem_cons_self he ▸ hc)
    rw [installUnpin, List.foldl_cons, ← installUnpin, installUnpin_buf bufOf hnd' hinj' x, bunpin_buf]
    by_cases hx : x = bufOf a
    · subst hx
      simp [hfresh]
    · simp [hx]

end Transaction

/-- Over the `log_write` calls of a transaction on the buffers `bufs`, from the empty header,
when no call panics and distinct buffers hold distinct blocks (`bufOf` names each buffer by its
block): the header lists the blocks written, each once, in the order of their first write; each
buffer written has been pinned exactly once; `write_log` copies log block `tail + 1` from the
`tail`-th logged block, so each block once; and the `bunpin`s of `install_trans(0)` give every
buffer back its state before the transaction. -/
theorem log_write_pins_once {α : Type} {lg lg' : Log} {bc bc' : Bcache} {bufs : List (Fin NBUF)}
    (bufOf : Nat → Fin NBUF) (hempty : lg.lh = []) (hbuf : ∀ b ∈ bufs, bufOf (bc.blk b) = b)
    (h : logWriteBufs lg bc bufs = some (lg', bc')) :
    lg'.lh.Nodup ∧ (∀ a, a ∈ lg'.lh ↔ a ∈ bufs.map bc.blk) ∧
      lg'.lh.Pairwise (fun a a' => (bufs.map bc.blk).idxOf a < (bufs.map bc.blk).idxOf a') ∧
      (∀ b, bc'.buf b = if b ∈ bufs then (bc.buf b).pinned else bc.buf b) ∧
      (∀ cache d : Nat → α, trace d (writeLog lg' cache) =
        (List.finRange lg'.lh.length).map fun (tail : Fin lg'.lh.length) =>
          (lg'.start + tail + 1, cache (lg'.lh.get tail))) ∧
      (installUnpin bc' bufOf lg'.lh).buf = bc.buf := by
  obtain ⟨hl, -, hc⟩ := logWriteBufs_spec hempty bufOf hbuf h
  have hmem : ∀ a, a ∈ lg'.lh ↔ a ∈ bufs.map bc.blk := fun a => by
    rw [hl, mem_foldl_absorb]
    simp
  have hnd : lg'.lh.Nodup := hl ▸ nodup_foldl_absorb List.nodup_nil
  -- the logged blocks are cached in distinct buffers, which are exactly the buffers written
  have hinj : ∀ a ∈ lg'.lh, ∀ a' ∈ lg'.lh, bufOf a = bufOf a' → a = a' := by
    intro a ha a' ha' he
    obtain ⟨b, hb, rfl⟩ := List.mem_map.mp ((hmem a).mp ha)
    obtain ⟨b', hb', rfl⟩ := List.mem_map.mp ((hmem a').mp ha')
    rw [hbuf b hb, hbuf b' hb'] at he
    rw [he]
  have hbufs : ∀ x, x ∈ lg'.lh.map bufOf ↔ x ∈ bufs := fun x => by
    rw [List.mem_map]
    constructor
    · rintro ⟨a, ha, rfl⟩
      obtain ⟨b, hb, rfl⟩ := List.mem_map.mp ((hmem a).mp ha)
      rwa [hbuf b hb]
    · intro hx
      exact ⟨bc.blk x, (hmem _).mpr (List.mem_map_of_mem hx), hbuf x hx⟩
  refine ⟨hnd, hmem, hl ▸ pairwise_foldl_absorb, hc, fun cache d => trace_writeLog cache d, ?_⟩
  funext x
  rw [installUnpin_buf bufOf hnd hinj x, hc x]
  by_cases hx : x ∈ bufs
  · rw [if_pos ((hbufs x).mpr hx), if_pos hx]
    simp [Buf.pinned]
  · rw [if_neg (fun h => hx ((hbufs x).mp h)), if_neg hx]

/-- Two `log_write`s of buffer `0` from the empty header pin it once. -/
theorem log_write_pins_once_twice :
    (⟨2, 30, 1, false, []⟩ : Log).lh = [] ∧
      (∀ b ∈ [(⟨0, by decide⟩ : Fin NBUF), ⟨0, by decide⟩], (fun _ => (⟨0, by decide⟩ : Fin NBUF)) (binit.blk b) = b) ∧
      logWriteBufs ⟨2, 30, 1, false, []⟩ binit [⟨0, by decide⟩, ⟨0, by decide⟩] =
        some (⟨2, 30, 1, false, [0]⟩, bpin binit ⟨0, by decide⟩) ∧
      (installUnpin (bpin binit ⟨0, by decide⟩) (fun _ => ⟨0, by decide⟩) [0]).buf = binit.buf := by
  have hbuf : ∀ b ∈ [(⟨0, by decide⟩ : Fin NBUF), ⟨0, by decide⟩],
      (fun _ => (⟨0, by decide⟩ : Fin NBUF)) (binit.blk b) = b := by
    intro b hb
    simp only [List.mem_cons, List.not_mem_nil, or_false, or_self] at hb
    exact hb.symm
  have hrun : logWriteBufs ⟨2, 30, 1, false, []⟩ binit [⟨0, by decide⟩, ⟨0, by decide⟩] =
      some (⟨2, 30, 1, false, [0]⟩, bpin binit ⟨0, by decide⟩) := rfl
  exact ⟨rfl, hbuf, hrun, (log_write_pins_once (α := Nat) (fun _ => ⟨0, by decide⟩) rfl hbuf hrun).2.2.2.2.2⟩

end Xv6Sched
