import Xv6Sched.Fs.ItableRefs

/-!
# Xv6Sched.Fs.Dir — what `dirlink` writes, and what `dirlookup` then finds

`dirlookup`'s loop (`findEnt`) takes the first used entry whose name agrees with the one looked
up in its first `DIRSIZ` characters (`Dirent.Matches`).  `dirlink` writes its entry into the
first free slot (`freeSlot`), or after the last one.  Then the name linked is found there, with
the inode number as the `ushort` `de.inum` holds it, and every name that does not agree with it is
found where it was before (`dirlink_links`).  A slot past `MAXFILE` blocks makes `writei` fail,
and `dirlink` panics.
-/

namespace Xv6Sched

open Itable

/-! ### Names -/

theorem strncmp_self (p : List Char) (n : Nat) : strncmp p p n = 0 := by
  induction p generalizing n with
  | nil => cases n <;> rfl
  | cons c p ih =>
    cases n with
    | zero => rfl
    | succ n => simp [strncmp, ih]

/-- `strncmp` reads at most `n` characters of either string. -/
theorem strncmp_take (p q : List Char) (n : Nat) : strncmp p (q.take n) n = strncmp p q n := by
  induction n generalizing p q with
  | zero => simp only [strncmp]
  | succ n ih =>
    cases p with
    | nil => cases q <;> rfl
    | cons c p =>
      cases q with
      | nil => rfl
      | cons d q => simp only [List.take_succ_cons, strncmp, ih]

theorem strncmp_take_left (p q : List Char) (n : Nat) : strncmp (p.take n) q n = strncmp p q n := by
  induction n generalizing p q with
  | zero => simp only [strncmp]
  | succ n ih =>
    cases q with
    | nil => cases p <;> rfl
    | cons d q =>
      cases p with
      | nil => rfl
      | cons c p => simp only [List.take_succ_cons, strncmp, ih]

/-- The name `strncpy` stores agrees with the name it was copied from. -/
theorem namecmp_take (n name : List Char) : namecmp n (name.take DIRSIZ) = namecmp n name :=
  strncmp_take n name DIRSIZ

/-! ### The loops over a directory's entries -/

/-- The test of `dirlookup`'s loop: a used entry whose name agrees with `name`. -/
def Dirent.Matches (de : Dirent) (name : List Char) : Prop := de.inum ≠ 0 ∧ namecmp name de.name = 0

instance (de : Dirent) (name : List Char) : Decidable (de.Matches name) :=
  inferInstanceAs (Decidable (_ ∧ _))

theorem Dirent.not_matches_of_free {de : Dirent} (h : de.inum = 0) (name : List Char) :
    ¬ de.Matches name :=
  fun hm => hm.1 h

@[simp] theorem findEnt_nil (name : List Char) (off : Nat) : findEnt name [] off = none := rfl

theorem findEnt_cons (name : List Char) (de : Dirent) (ents : List Dirent) (off : Nat) :
    findEnt name (de :: ents) off =
      if de.Matches name then some (off, de.inum.toNat) else findEnt name ents (off + direntSize) :=
  rfl

variable {name : List Char} {ents : List Dirent} {de : Dirent}

theorem findEnt_eq_none : ∀ {ents : List Dirent} {off : Nat},
    findEnt name ents off = none ↔ ∀ e ∈ ents, ¬ e.Matches name
  | [], _ => by simp
  | e :: ents, off => by
    rw [findEnt_cons]
    split_ifs with he
    · simp [he]
    · simp [he, findEnt_eq_none]

/-- `skipelem` cuts the element it copies to `DIRSIZ` bytes, which `namecmp` reads whole. -/
theorem findEnt_take (w : List Char) : ∀ (ents : List Dirent) (off : Nat),
    findEnt (w.take DIRSIZ) ents off = findEnt w ents off
  | [], _ => rfl
  | e :: ents, off => by
    have hm : e.Matches (w.take DIRSIZ) ↔ e.Matches w := by
      simp only [Dirent.Matches, namecmp, strncmp_take_left]
    rw [findEnt_cons, findEnt_cons, findEnt_take w ents]
    by_cases h : e.Matches w
    · rw [if_pos (hm.mpr h), if_pos h]
    · rw [if_neg (fun h' => h (hm.mp h')), if_neg h]

/-- What the lookup finds is a used entry of the directory that matches. -/
theorem findEnt_mem : ∀ {ents : List Dirent} {off o n : Nat}, findEnt name ents off = some (o, n) →
    ∃ e ∈ ents, e.Matches name ∧ e.inum.toNat = n
  | [], _, _, _, h => by cases h
  | e :: ents, off, o, n, h => by
    rw [findEnt_cons] at h
    split_ifs at h with he
    · cases h
      exact ⟨e, List.mem_cons_self, he, rfl⟩
    · obtain ⟨e', he', hm, hn⟩ := findEnt_mem h
      exact ⟨e', List.mem_cons_of_mem e he', hm, hn⟩

theorem findEnt_ne_none {off : Nat} (hm : ∃ e ∈ ents, e.Matches name) : findEnt name ents off ≠ none := by
  obtain ⟨e, he, hme⟩ := hm
  exact fun h => findEnt_eq_none.mp h e he hme

/-- An entry added after the others that does not match leaves the lookup as it was. -/
theorem findEnt_append_of_not (h : ¬ de.Matches name) :
    ∀ {ents : List Dirent} {off : Nat}, findEnt name (ents ++ [de]) off = findEnt name ents off
  | [], off => by rw [List.nil_append, findEnt_cons, if_neg h]; rfl
  | e :: ents, off => by
    rw [List.cons_append, findEnt_cons, findEnt_cons, findEnt_append_of_not h]

/-- An entry replaced by another, neither of them matching, leaves the lookup as it was. -/
theorem findEnt_set_of_not (h : ¬ de.Matches name) :
    ∀ {ents : List Dirent} {k off : Nat}, (∀ e, ents[k]? = some e → ¬ e.Matches name) →
      findEnt name (ents.set k de) off = findEnt name ents off
  | [], _, _, _ => rfl
  | e :: ents, 0, off, he => by
    rw [List.set_cons_zero, findEnt_cons, findEnt_cons, if_neg h, if_neg (he e rfl)]
  | e :: ents, k + 1, off, he => by
    rw [List.set_cons_succ, findEnt_cons, findEnt_cons, findEnt_set_of_not h (by simpa using he)]

/-- The first matching entry, written into slot `k` after entries that do not match. -/
theorem findEnt_set_first (h : de.Matches name) :
    ∀ {ents : List Dirent} {k off : Nat}, k < ents.length → (∀ e ∈ ents.take k, ¬ e.Matches name) →
      findEnt name (ents.set k de) off = some (off + k * direntSize, de.inum.toNat)
  | [], _, _, hk, _ => absurd hk (Nat.not_lt_zero _)
  | e :: ents, 0, off, _, _ => by
    rw [List.set_cons_zero, findEnt_cons, if_pos h, Nat.zero_mul, Nat.add_zero]
  | e :: ents, k + 1, off, hk, he => by
    have he0 : ¬ e.Matches name := he e (by simp)
    rw [List.set_cons_succ, findEnt_cons, if_neg he0,
      findEnt_set_first h (by simpa using hk) fun e' he' => he e' (by simp [he'])]
    congr 2
    simp only [direntSize]
    omega

/-- The first matching entry, added after entries none of which matches. -/
theorem findEnt_append_first (h : de.Matches name) :
    ∀ {ents : List Dirent} {off : Nat}, (∀ e ∈ ents, ¬ e.Matches name) →
      findEnt name (ents ++ [de]) off = some (off + ents.length * direntSize, de.inum.toNat)
  | [], off, _ => by rw [List.nil_append, findEnt_cons, if_pos h]; simp
  | e :: ents, off, he => by
    rw [List.cons_append, findEnt_cons, if_neg (he e List.mem_cons_self),
      findEnt_append_first h fun e' he' => he e' (List.mem_cons_of_mem e he')]
    congr 2
    simp only [List.length_cons, direntSize]
    omega

theorem freeSlot_le : ∀ ents : List Dirent, freeSlot ents ≤ ents.length
  | [] => le_rfl
  | e :: ents => by
    unfold freeSlot
    split_ifs
    · exact Nat.zero_le _
    · simpa using freeSlot_le ents

/-- The slot `dirlink` writes into is free, when it is not past the last entry. -/
theorem freeSlot_free : ∀ {ents : List Dirent} {e : Dirent}, ents[freeSlot ents]? = some e → e.inum = 0
  | [], _, h => by simp [freeSlot] at h
  | e' :: ents, e, h => by
    unfold freeSlot at h
    split_ifs at h with he
    · simp only [List.getElem?_cons_zero, Option.some.injEq] at h
      exact h ▸ he
    · exact freeSlot_free (by simpa using h)

/-! ### `dirlink` -/

/-- The entries after `writeEnt` at slot `k`: the entry replaced, or added after the others;
`iupdate` leaves the content as it is. -/
theorem writeEnt_ents {t t' : Itable} {dp : Fin NINODE} {k : Nat} {b : Bool} (h : t.writeEnt dp k de b = some t') :
    t'.ents dp = if k < (t.ents dp).length then (t.ents dp).set k de else t.ents dp ++ [de] := by
  unfold writeEnt at h
  dsimp only at h
  -- past `MAXFILE`, then `balloc` out of blocks: both panic
  split at h
  · cases h
  split at h
  · cases h
  cases h
  simp [ents, iupdate]

/-- `writei` of an entry panics past `MAXFILE` blocks, and in `balloc` when the entry starts a new
block and the bitmap has no free one. -/
theorem writeEnt_eq_none {t : Itable} {dp : Fin NINODE} {k : Nat} {b : Bool} :
    t.writeEnt dp k de b = none ↔
      MAXFILE * BSIZE < k * direntSize + direntSize ∨ NewBlock (t.ents dp) k ∧ b = false := by
  unfold writeEnt
  dsimp only
  split_ifs with h h' <;> simp_all

/-- `iput` writes the disk only when it frees the last reference, and then only its own inode. -/
theorem iput_disk {t t' : Itable} {i : Fin NINODE} (h : t.iput i = some t') (n : Nat)
    (hn : n ≠ (t.inode i).inum ∨ (t.inode i).ref ≠ 1) : t'.disk n = t.disk n := by
  unfold Itable.iput at h
  dsimp only at h
  split_ifs at h with hf hl
  · cases h
    rcases hn with hn | hn
    · simp [Itable.itrunc, Itable.iupdate, Function.update_of_ne hn]
    · simp at hf
      omega
  · cases h
    rfl

/-- The name `dirlink` stores, as `dirlookup` compares it. -/
theorem Dirent.matches_link_iff (n name : List Char) (inum : Nat) :
    (⟨UInt16.ofNat inum, name.take DIRSIZ⟩ : Dirent).Matches n ↔ UInt16.ofNat inum ≠ 0 ∧ namecmp n name = 0 := by
  unfold Dirent.Matches
  rw [namecmp_take]

/-- The free-slot loop stops at its first free entry. -/
theorem freeSlot_used : ∀ {ents : List Dirent}, ∀ e ∈ ents.take (freeSlot ents), e.inum ≠ 0
  | [], _, h => by simp at h
  | e' :: ents, e, h => by
    unfold freeSlot at h
    split_ifs at h with he
    · simp at h
    · rw [List.take_succ_cons, List.mem_cons] at h
      rcases h with rfl | h
      · exact he
      · exact freeSlot_used e h

/-- The lookup of the name `dirlink` writes, from a directory where nothing matches it. -/
theorem findEnt_place_first (hn : ∀ e ∈ ents, ¬ e.Matches name) (h : de.Matches name) :
    findEnt name (if freeSlot ents < ents.length then ents.set (freeSlot ents) de else ents ++ [de]) 0 =
      some (freeSlot ents * direntSize, de.inum.toNat) := by
  split_ifs with hk
  · rw [findEnt_set_first h hk fun e he => hn e (List.mem_of_mem_take he), Nat.zero_add]
  · have hs : freeSlot ents = ents.length := le_antisymm (freeSlot_le ents) (not_lt.mp hk)
    rw [findEnt_append_first h hn, hs, Nat.zero_add]

/-- The lookup of a name the new entry does not match: the slot written was free. -/
theorem findEnt_place_other {off : Nat} (h : ¬ de.Matches name) :
    findEnt name (if freeSlot ents < ents.length then ents.set (freeSlot ents) de else ents ++ [de]) off =
      findEnt name ents off := by
  split_ifs
  · exact findEnt_set_of_not h fun e he => Dirent.not_matches_of_free (freeSlot_free he) name
  · exact findEnt_append_of_not h

variable {t t' : Itable} {dp : Fin NINODE} {inum : Nat} {b : Bool} {r : Int}

theorem dirlookup_of_found {off inum' : Nat} (hd : (t.inode dp).type = T_DIR)
    (hf : findEnt name (t.ents dp) 0 = some (off, inum')) :
    t.dirlookup dp name = (t.iget (t.inode dp).dev inum').map fun (ip, t) => (some (off, ip), t) := by
  unfold dirlookup
  rw [if_neg (not_not.mpr hd), hf]

theorem dirlookup_of_not_found (hd : (t.inode dp).type = T_DIR) (hf : findEnt name (t.ents dp) 0 = none) :
    t.dirlookup dp name = some (none, t) := by
  unfold dirlookup
  rw [if_neg (not_not.mpr hd), hf]

theorem dirlink_of_found {off inum' : Nat} (hd : (t.inode dp).type = T_DIR)
    (hf : findEnt name (t.ents dp) 0 = some (off, inum')) :
    t.dirlink dp name inum b =
      (t.iget (t.inode dp).dev inum').bind fun (ip, t) => (t.iput ip).map fun t => (-1, t) := by
  unfold dirlink
  rw [dirlookup_of_found hd hf]
  cases t.iget (t.inode dp).dev inum' with
  | none => rfl
  | some x =>
    obtain ⟨ip, t1⟩ := x
    simp only [Option.map_some, bind, Option.bind_some]
    cases t1.iput ip <;> rfl

theorem dirlink_of_not_found (hd : (t.inode dp).type = T_DIR) (hf : findEnt name (t.ents dp) 0 = none) :
    t.dirlink dp name inum b =
      (t.writeEnt dp (freeSlot (t.ents dp)) ⟨UInt16.ofNat inum, name.take DIRSIZ⟩ b).map fun t => (0, t) := by
  unfold dirlink
  rw [dirlookup_of_not_found hd hf]
  simp only [bind, Option.bind_some]
  cases t.writeEnt dp (freeSlot (t.ents dp)) ⟨UInt16.ofNat inum, name.take DIRSIZ⟩ b <;> rfl

/-- `iput` of an entry it does not free: one reference less. -/
theorem iput_of_keep {i : Fin NINODE}
    (h : (t.inode i).ref ≠ 1 ∨ (t.inode i).valid = false ∨ (t.inode i).nlink ≠ 0) :
    t.iput i = some (t.setInode i { t.inode i with ref := (t.inode i).ref - 1 }) := by
  unfold Itable.iput
  rw [if_neg]
  rcases h with h | h | h <;> simp [h]

/-- The reference `dirlookup` takes, given back by `dirlink`: the `iput` never frees, so the
disk is as it was, and so is every entry that had a reference. -/
theorem iget_iput {dev inum' : Nat} {ip : Fin NINODE} {t1 : Itable} (hg : t.iget dev inum' = some (ip, t1)) :
    ∃ t2, t1.iput ip = some t2 ∧ t2.disk = t.disk ∧ ∀ j, 0 < (t.inode j).ref → t2.inode j = t.inode j := by
  rcases iget_cases hg with ⟨hpos, -, -, rfl⟩ | ⟨h0, -, rfl⟩
  · -- a second reference to an entry: `ref == 1` fails, and the count goes back
    have hr : ((t.idup ip).inode ip).ref ≠ 1 := by simp [idup]; omega
    refine ⟨_, iput_of_keep (.inl hr), rfl, fun j _ => ?_⟩
    by_cases hj : j = ip
    · subst hj
      simp [idup]
    · simp [idup, hj]
  · -- a recycled entry is not `valid`, and had no reference
    refine ⟨_, iput_of_keep (.inr (.inl (by simp))), rfl, fun j hj => ?_⟩
    have hne : j ≠ ip := fun e => by rw [e, h0] at hj; exact Nat.lt_irrefl 0 hj
    simp [hne]

/-- `dirlink` of a name `dp` has: `-1`, with `dp` and the disk as they were; it panics only in
`iget`, with every entry of the table in use. -/
theorem dirlink_found (hd : (t.inode dp).type = T_DIR) (hdp : 0 < (t.inode dp).ref)
    (hm : ∃ e ∈ t.ents dp, e.Matches name) :
    (∀ r t', t.dirlink dp name inum b = some (r, t') → r = -1 ∧ t'.inode dp = t.inode dp ∧ t'.disk = t.disk) ∧
      (t.dirlink dp name inum b = none → ∀ j, 0 < (t.inode j).ref) := by
  obtain ⟨⟨off, inum'⟩, hf⟩ := Option.ne_none_iff_exists'.mp
    (findEnt_ne_none hm : findEnt name (t.ents dp) 0 ≠ none)
  rw [dirlink_of_found hd hf]
  refine ⟨fun r t' hl => ?_, fun hl => ?_⟩
  · obtain ⟨⟨ip, t1⟩, hg, h2⟩ := Option.bind_eq_some_iff.mp hl
    obtain ⟨t2, hp, hdisk, hsame⟩ := iget_iput hg
    dsimp only at h2
    rw [hp] at h2
    cases h2
    exact ⟨rfl, hsame dp hdp, hdisk⟩
  · cases hg : t.iget (t.inode dp).dev inum' with
    | none => exact iget_eq_none hg
    | some x =>
      obtain ⟨ip, t1⟩ := x
      obtain ⟨t2, hp, -⟩ := iget_iput hg
      rw [hg] at hl
      simp [hp] at hl

/-- `dirlink` of a name `dp` does not have: `0`, the entry written into the first free slot or
after the last; then the name is found there, with the number as the `ushort` `de.inum` holds
it, and every name that does not agree with it is found where it was before.  It panics just
when the slot is past `MAXFILE` blocks, or starts a new block and `balloc` finds none free. -/
theorem dirlink_not_found (hd : (t.inode dp).type = T_DIR) (hn : ∀ e ∈ t.ents dp, ¬ e.Matches name) :
    (t.dirlink dp name inum b = none ↔ MAXFILE * BSIZE < freeSlot (t.ents dp) * direntSize + direntSize ∨
        NewBlock (t.ents dp) (freeSlot (t.ents dp)) ∧ b = false) ∧
      ∀ r t', t.dirlink dp name inum b = some (r, t') → r = 0 ∧ t'.inode = t.inode ∧
        t'.ents dp = (if freeSlot (t.ents dp) < (t.ents dp).length
          then (t.ents dp).set (freeSlot (t.ents dp)) ⟨UInt16.ofNat inum, name.take DIRSIZ⟩
          else t.ents dp ++ [⟨UInt16.ofNat inum, name.take DIRSIZ⟩]) ∧
        (inum % 65536 ≠ 0 →
          findEnt name (t'.ents dp) 0 = some (freeSlot (t.ents dp) * direntSize, inum % 65536)) ∧
        ∀ n, namecmp n name ≠ 0 → findEnt n (t'.ents dp) 0 = findEnt n (t.ents dp) 0 := by
  rw [dirlink_of_not_found hd (findEnt_eq_none.mpr hn), Option.map_eq_none_iff, writeEnt_eq_none]
  refine ⟨Iff.rfl, fun r t' hl => ?_⟩
  obtain ⟨t2, hw, he⟩ := Option.map_eq_some_iff.mp hl
  cases he
  have hents := writeEnt_ents hw
  have hofNat : (UInt16.ofNat inum).toNat = inum % 65536 := UInt16.toNat_ofNat
  refine ⟨rfl, writeEnt_inode hw, hents, fun h0 => ?_, fun n hne => ?_⟩
  · have hm : (⟨UInt16.ofNat inum, name.take DIRSIZ⟩ : Dirent).Matches name :=
      (Dirent.matches_link_iff name name inum).mpr
        ⟨fun e => h0 (by rw [← hofNat, e]; rfl), strncmp_self name DIRSIZ⟩
    rw [hents, findEnt_place_first hn hm, hofNat]
  · rw [hents, findEnt_place_other fun hm => hne ((Dirent.matches_link_iff n name inum).mp hm).2]

/-- For every directory `dp` the caller holds, every name and every inode number: `dirlink`
returns `-1`, leaving `dp` and the disk as they were, when an entry agrees with the name; else
it returns `0`, having written the entry into the first free slot or after the last, and the
name is then found there with the number as its `ushort`, every other name where it was.  It
then panics just when that slot is past `MAXFILE` blocks, or starts a new block and `balloc`
finds none free. -/
theorem dirlink_links (hd : (t.inode dp).type = T_DIR) (hdp : 0 < (t.inode dp).ref) :
    ((∃ e ∈ t.ents dp, e.Matches name) →
      (∀ r t', t.dirlink dp name inum b = some (r, t') →
        r = -1 ∧ t'.inode dp = t.inode dp ∧ t'.disk = t.disk) ∧
      (t.dirlink dp name inum b = none → ∀ j, 0 < (t.inode j).ref)) ∧
    ((∀ e ∈ t.ents dp, ¬ e.Matches name) →
      (∀ e ∈ (t.ents dp).take (freeSlot (t.ents dp)), e.inum ≠ 0) ∧
      (∀ e, (t.ents dp)[freeSlot (t.ents dp)]? = some e → e.inum = 0) ∧
      (t.dirlink dp name inum b = none ↔ MAXFILE * BSIZE < freeSlot (t.ents dp) * direntSize + direntSize ∨
        NewBlock (t.ents dp) (freeSlot (t.ents dp)) ∧ b = false) ∧
      ∀ r t', t.dirlink dp name inum b = some (r, t') → r = 0 ∧ t'.inode = t.inode ∧
        t'.ents dp = (if freeSlot (t.ents dp) < (t.ents dp).length
          then (t.ents dp).set (freeSlot (t.ents dp)) ⟨UInt16.ofNat inum, name.take DIRSIZ⟩
          else t.ents dp ++ [⟨UInt16.ofNat inum, name.take DIRSIZ⟩]) ∧
        (inum % 65536 ≠ 0 →
          findEnt name (t'.ents dp) 0 = some (freeSlot (t.ents dp) * direntSize, inum % 65536)) ∧
        ∀ n, namecmp n name ≠ 0 → findEnt n (t'.ents dp) 0 = findEnt n (t.ents dp) 0) :=
  ⟨dirlink_found hd hdp, fun hn => ⟨freeSlot_used, fun _ => freeSlot_free, dirlink_not_found hd hn⟩⟩

/-- The root directory, empty, held and locked in entry `0` of the table. -/
def emptyRoot : Itable :=
  (Itable.boot fun _ => DiskInode.zero).setInode ⟨0, by decide⟩ ⟨ROOTDEV, ROOTINO, 1, true, true, T_DIR, 0, 0, 1⟩

/-- The first entry of the empty root starts its first block: `dirlink` panics when `balloc`
finds no free block, and otherwise puts the name at offset `0`. -/
theorem dirlink_links_root :
    (emptyRoot.inode ⟨0, by decide⟩).type = T_DIR ∧ 0 < (emptyRoot.inode ⟨0, by decide⟩).ref ∧
      emptyRoot.dirlink ⟨0, by decide⟩ ['a'] 2 false = none ∧
      ∀ r t', emptyRoot.dirlink ⟨0, by decide⟩ ['a'] 2 true = some (r, t') →
        r = 0 ∧ findEnt ['a'] (t'.ents ⟨0, by decide⟩) 0 = some (0, 2) := by
  obtain ⟨-, -, hfull, -⟩ := (@dirlink_links ['a'] emptyRoot ⟨0, by decide⟩ 2 false rfl (by decide)).2
    (by decide)
  obtain ⟨-, -, -, h⟩ := (@dirlink_links ['a'] emptyRoot ⟨0, by decide⟩ 2 true rfl (by decide)).2
    (by decide)
  refine ⟨rfl, by decide, hfull.mpr (.inr ⟨by decide, rfl⟩), fun r t' hl => ?_⟩
  obtain ⟨hr, -, -, hf, -⟩ := h r t' hl
  exact ⟨hr, hf (by decide)⟩

/-- `de.inum` is a `ushort`: linking inode `65536` writes a free entry, which `dirlookup` passes
over, and linking `65537` makes the name find inode `1`. -/
theorem dirlink_truncates_inum :
    ((emptyRoot.dirlink ⟨0, by decide⟩ ['a'] 65536 true).map fun r => (r.1, findEnt ['a'] (r.2.ents ⟨0, by decide⟩) 0)) =
        some (0, none) ∧
      ((emptyRoot.dirlink ⟨0, by decide⟩ ['a'] 65537 true).map fun r => (r.1, findEnt ['a'] (r.2.ents ⟨0, by decide⟩) 0)) =
        some (0, some (0, 1)) := by
  decide

end Xv6Sched
