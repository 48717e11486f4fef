/-
**What a deletion releases.**

The loop of `yaf_delete` takes the number of blocks of a file from its size.  The size of a file
that is only written to is covered by the entries of `i_block` that were assigned; but the driver
has no `setattr`, and `simple_setattr` sets any size without assigning a block.

Main definitions:

* `Yaf.World.ReleasesOwn` — the loop stays inside `i_block` and releases marked blocks only;
* `Yaf.Op.Fits` — a size change within the blocks assigned;
* `Yaf.FilesStay` — sizes and maps of files stay as they are.

Main results:

* `Yaf.wp_putBlocks_of_releasesOwn` — the loop on such a file;
* `Yaf.releasesOwn_of_run` — **a deletion touches only what the file owns** exactly when the size
  is covered by the blocks assigned, and that is so in every run whose size changes fit.
-/

import Yaf.Failures

set_option relaxedAutoImplicit false
set_option autoImplicit false

namespace Yaf

open Prog

/-! ### The loop -/

namespace World

/-- The world after the loop of `yaf_delete` released the first `k` entries of `i_block`. -/
def released (w : World) (i : Inode) (k : ℕ) : World :=
  w.unmark ((List.range k).map fun j => (i.blk j).toNat)

/-- **The loop of `yaf_delete` touches only what the inode owns**: it reads `i_block` inside its
bounds, and what it releases is a block whose bit is set by then. -/
def ReleasesOwn (w : World) (i : Inode) : Prop :=
  ∀ k, k * YAF_BLOCK_SIZE < i.i_size →
    k < YAF_IBLOCKS ∧ i.blk k ≠ RESERVED_DNO ∧ (w.released i k).dbit (i.blk k).toNat = true

theorem released_succ (w : World) (i : Inode) (k : ℕ) :
    w.released i (k + 1) = (w.released i k).markD (i.blk k).toNat false := by
  rw [released, released, List.range_succ, List.map_append, unmark, unmark, List.foldl_append]
  rfl

end World

section Loop

variable {w : World} {i : Inode}

/-- **The loop on a file that owns what it releases** comes to its end, unless a block of the
bitmap cannot be read. -/
theorem wp_putBlocks_of_releasesOwn (h : w.ReleasesOwn i) :
    wp (putBlocks i YAF_IBLOCKS 0) (fun _ w' => w' = w.unmark i.sized)
      (fun e => e = .panic ∧ ∃ k, k * YAF_BLOCK_SIZE < i.i_size ∧
        (w.released i k).readable .bitmap (IDXD2BID w.sb (i.blk k).toNat) = false) w := by
  rw [World.ReleasesOwn, YAF_BLOCK_SIZE_eq] at h
  -- after `k` passes the first `k` entries are released
  have hloop : ∀ rem k, k + rem = 8 → k ≤ (i.i_size + 4095) / 4096 →
      wp (putBlocks i rem k) (fun _ w' => w' = w.unmark i.sized)
        (fun e => e = .panic ∧ ∃ k, k * 4096 < i.i_size ∧
          (w.released i k).readable .bitmap (IDXD2BID w.sb (i.blk k).toNat) = false)
        (w.released i k) := by
    intro rem
    induction rem with
    | zero =>
        intro k hk hle
        have hend : ¬k * 4096 < i.i_size := by
          intro hlt
          have h₈ : k < 8 := (h k hlt).1
          omega
        rw [putBlocks, YAF_BLOCK_SIZE_eq, if_neg hend, wp_pure, World.released, Inode.sized,
          show k = (i.i_size + 4095) / 4096 by omega]
    | succ rem ih =>
        intro k hk hle
        rw [putBlocks, YAF_BLOCK_SIZE_eq]
        split
        · rename_i hlt
          obtain ⟨-, -, hbit⟩ := h k hlt
          have hsb : (w.released i k).sb = w.sb := (w.unmark_consts _).1
          rw [wp_bind, wp_iblock _ (by omega), wp_bind, wp_yaf_put_dblock, hsb]
          split
          · rw [← World.released_succ]
            exact ih (k + 1) (by omega) (by omega)
          · rename_i hno
            refine ⟨rfl, k, hlt, ?_⟩
            rw [Bool.eq_false_iff]
            exact fun hread => hno ⟨hread, hbit⟩
        · rw [wp_pure, World.released, Inode.sized, show k = (i.i_size + 4095) / 4096 by omega]
  exact hloop 8 0 rfl (Nat.zero_le _)

/-- The blocks assigned cover the size when no entry below it is `RESERVED_DNO`. -/
theorem size_le_iff (i : Inode) : i.i_size ≤ YAF_BLOCK_SIZE * countAssigned i YAF_IBLOCKS 0 ↔
    ∀ k, k * YAF_BLOCK_SIZE < i.i_size → i.blk k ≠ RESERVED_DNO := by
  obtain ⟨hle, hlow, hhigh⟩ := countAssigned_spec i
  rw [YAF_BLOCK_SIZE_eq]
  constructor
  · intro hsize k hk
    exact hlow k (by omega)
  · intro h
    by_contra hlt
    have hne := h (countAssigned i YAF_IBLOCKS 0) (by omega)
    rcases Nat.lt_or_ge (countAssigned i YAF_IBLOCKS 0) 8 with h₈ | h₈
    · exact hne (hhigh h₈)
    · exact hne (i.blk_of_le h₈)

/-- **The loop touches only what the file owns** exactly when the blocks assigned cover the
size. -/
theorem releasesOwn_iff
    (hmarked : ∀ k, i.blk k ≠ RESERVED_DNO → w.view.dset (i.blk k).toNat = true)
    (hsole : ∀ k l, i.blk k ≠ RESERVED_DNO → i.blk k = i.blk l → k = l) :
    w.ReleasesOwn i ↔ i.i_size ≤ YAF_BLOCK_SIZE * countAssigned i YAF_IBLOCKS 0 := by
  rw [size_le_iff]
  constructor
  · intro h k hk
    exact (h k hk).2.1
  · intro h k hk
    have hne := h k hk
    have h₈ : k < 8 := by
      by_contra hge
      exact hne (i.blk_of_le (Nat.not_lt.1 hge))
    refine ⟨h₈, hne, ?_⟩
    -- the blocks released before are others
    have hnot : (i.blk k).toNat ∉ (List.range k).map fun j => (i.blk j).toNat := by
      intro hmem
      obtain ⟨j, hj, he⟩ := List.mem_map.1 hmem
      have hjk := hsole k j hne (UInt32.toNat_inj.1 he.symm)
      rw [← hjk] at hj
      exact List.not_mem_range_self hj
    have hset : (w.released i k).view.dset (i.blk k).toNat = true := by
      rw [World.released, World.dset_unmark_of_notMem w hnot, hmarked k hne]
    rcases Nat.lt_or_ge (i.blk k).toNat ((w.released i k).sb.nr_dbp * 32768) with hd | hd
    · rwa [World.dset_of_lt hd] at hset
    · rw [World.dset_of_le hd] at hset
      exact absurd hset Bool.false_ne_true

end Loop

/-! ### Sizes -/

/-- **Files stay as they are**: an inode in memory that is no directory is empty, or was there
before with the same size and map. -/
def FilesStay (w w' : World) : Prop :=
  ∀ n i', w'.inode? n = some i' → S_ISDIR i'.i_mode = false → i'.i_size = 0 ∨
    ∃ i, w.inode? n = some i ∧ S_ISDIR i.i_mode = false ∧ i'.i_size = i.i_size ∧
      i'.i_block = i.i_block

namespace FilesStay

variable {w w₁ w' : World}

theorem of_inode? (h : ∀ n, w'.inode? n = w.inode? n) : FilesStay w w' := by
  intro n i' hi' hd
  rw [h] at hi'
  exact .inr ⟨i', hi', hd, rfl, rfl⟩

theorem refl (w : World) : FilesStay w w := of_inode? fun _ => rfl

theorem trans (h : FilesStay w w₁) (h' : FilesStay w₁ w') : FilesStay w w' := by
  intro n i' hi' hd
  rcases h' n i' hi' hd with h₀ | ⟨i₁, hi₁, hd₁, hs₁, hb₁⟩
  · exact .inl h₀
  · rcases h n i₁ hi₁ hd₁ with h₀ | ⟨i, hi, hdi, hs, hb⟩
    · exact .inl (hs₁.trans h₀)
    · exact .inr ⟨i, hi, hdi, hs₁.trans hs, hb₁.trans hb⟩

/-- An inode that changes is a directory, or keeps its size and map. -/
theorem touch {n : ℕ} {f : Inode → Inode}
    (hf : ∀ i, w.inode? n = some i → (f i).i_mode = i.i_mode ∧
      (S_ISDIR i.i_mode = true ∨ (f i).i_size = i.i_size ∧ (f i).i_block = i.i_block)) :
    FilesStay w (w.touch n f) := by
  intro m i' hi' hd
  rw [World.inode?_touch] at hi'
  split at hi'
  · subst m
    obtain ⟨i, hi, rfl⟩ := Option.map_eq_some_iff.1 hi'
    obtain ⟨hmode, h⟩ := hf i hi
    rw [hmode] at hd
    have hkeep := h.resolve_left (by rw [hd]; exact Bool.false_ne_true)
    exact .inr ⟨i, hi, hd, hkeep⟩
  · exact .inr ⟨i', hi', hd, rfl, rfl⟩

/-- A new inode is empty. -/
theorem create (w : World) (n : ℕ) (d : Inode) (mode : UInt16) :
    FilesStay w (w.create n d mode) := by
  intro m i' hi' hd
  rw [World.create, World.inode?_setCore _ _ rfl] at hi'
  split at hi'
  · cases hi'
    exact .inl rfl
  · exact .inr ⟨i', hi', hd, rfl, rfl⟩

/-- An inode leaves the memory. -/
theorem setCore_none (w : World) (n : ℕ) : FilesStay w (w.setCore n none) := by
  intro m i' hi' hd
  rw [World.inode?_setCore_none] at hi'
  split at hi'
  · simp at hi'
  · exact .inr ⟨i', hi', hd, rfl, rfl⟩

theorem iput (w : World) (n : ℕ) : FilesStay w (w.iput n) := by
  rw [World.iput]
  split
  · split
    · exact setCore_none w n
    · exact .refl w
  · exact .refl w

end FilesStay

section Steps

variable {w : World} {dir : ℕ} {i : Inode}

theorem filesStay_append (hi : w.inode? dir = some i) (hdir : S_ISDIR i.i_mode = true) (doff : ℕ)
    (dno : UInt32) : FilesStay w (w.append dir doff dno) := by
  refine (FilesStay.of_inode? (w.inode?_setBlock _ _)).trans (.touch fun j hj => ⟨rfl, .inl ?_⟩)
  rw [World.inode?_setBlock, hi, Option.some_inj] at hj
  rwa [← hj]

theorem filesStay_take (hi : w.inode? dir = some i) (hdir : S_ISDIR i.i_mode = true) (k : ℕ) :
    FilesStay w (w.takeD.2.touch dir fun i => i.setBlk k w.takeD.1) := by
  refine (FilesStay.of_inode? w.inode?_takeD).trans (.touch fun j hj => ⟨rfl, .inl ?_⟩)
  rw [World.inode?_takeD, hi, Option.some_inj] at hj
  rwa [← hj]

/-- The search for a free dentry changes the directory only. -/
theorem get_free_dentry_filesStay (hok : w.sb.Ok w.nblk) (hi : w.inode? dir = some i)
    (hdir : S_ISDIR i.i_mode = true) :
    wp (yaf_get_free_dentry dir) (fun _ w₁ => w₁.sb = w.sb ∧ w₁.nblk = w.nblk ∧
      FilesStay w w₁ ∧ ∃ j, w₁.inode? dir = some j ∧ S_ISDIR j.i_mode = true)
      (fun _ => True) w := by
  refine wp_yaf_get_free_dentry_of_forall hi hok (fun _ => trivial) ?_ ?_ ?_
  · intro r _
    exact ⟨rfl, rfl, .refl w, i, hi, hdir⟩
  · intro doff _
    obtain ⟨j, hj, hmode⟩ := inode?_append hi doff (i.blk (doff / 4096))
    exact ⟨rfl, rfl, filesStay_append hi hdir doff _, j, hj, by rw [hmode, hdir]⟩
  · intro doff _ _
    have htake : (w.takeD.2.touch dir fun i => i.setBlk (doff / 4096) w.takeD.1).inode? dir =
        some (i.setBlk (doff / 4096) w.takeD.1) := by
      rw [World.inode?_touch, if_pos rfl, World.inode?_takeD, hi]
      rfl
    obtain ⟨hsb, hnblk, -⟩ := w.takeD_consts
    rw [append_attach]
    obtain ⟨j, hj, hmode⟩ := inode?_append htake doff w.takeD.1
    refine ⟨hsb, hnblk, ?_, j, hj, by rw [hmode]; exact hdir⟩
    exact (filesStay_take hi hdir _).trans (filesStay_append htake hdir doff _)

/-- The second half of a creation. -/
theorem linkDentry_filesStay (hok : w.sb.Ok w.nblk) (hi : w.inode? dir = some i) (q : Qstr) (mode : UInt16) (doff : ℕ) :
    wp (linkDentry dir q mode doff) (fun _ w' => FilesStay w w') (fun _ => True) w := by
  rcases Nat.lt_or_ge (doff / 4096) 8 with hk | hk
  · rw [wp_linkDentry hi hk]
    split
    · refine wp_yaf_new_inode_of_forall hok hi (fun _ => trivial) (fun _ => .refl w) ?_ ?_ ?_ ?_
      · exact fun _ _ => .of_inode? fun _ => rfl
      · exact fun _ => .of_inode? fun _ => rfl
      · exact fun n _ _ hc _ => .of_inode? fun m => World.inode?_lock hc m
      · intro n d _ _ _ _
        refine (FilesStay.create w n d mode).trans ?_
        refine (FilesStay.of_inode? ((w.create n d mode).inode?_setBlock _ _)).trans
          (.touch fun j _ => ⟨rfl, .inr ⟨rfl, rfl⟩⟩)
    · exact .refl w
  · rw [wp_linkDentry_of_le hi hk]
    trivial

/-- **A creation leaves the files as they are.** -/
theorem create_filesStay (hok : w.sb.Ok w.nblk) (hdir : w.holds S_ISDIR dir = true) (q : Qstr)
    (mode : UInt16) :
    wp (_yaf_create dir q mode) (fun _ w' => FilesStay w w') (fun _ => True) w := by
  obtain ⟨i, hi, hkind⟩ := World.exists_of_holds hdir
  rw [_yaf_create]
  split
  · exact .refl w
  · rw [wp_bind]
    refine wp_mono (get_free_dentry_filesStay hok hi hkind) ?_ fun _ h => h
    rintro r w₁ ⟨hsb, hnblk, hstay, j, hj, -⟩
    have hok₁ : w₁.sb.Ok w₁.nblk := by
      rw [hsb, hnblk]
      exact hok
    exact wp_mono (linkDentry_filesStay hok₁ hj q mode _) (fun _ _ h => hstay.trans h)
      fun _ h => h

/-- **So does a removal**, of the others. -/
theorem delete_filesStay (hdir : w.holds S_ISDIR dir = true) {ino : ℕ} {j : Inode}
    (hj : w.inode? ino = some j) (q : Qstr) :
    wp (yaf_delete dir q ino) (fun _ w' => FilesStay w w') (fun _ => True) w := by
  obtain ⟨i, hi, -⟩ := World.exists_of_holds hdir
  have hunlink : ∀ d off, FilesStay w (w.unlink dir (DNO2BID w.sb d) off) := by
    intro d off
    exact (FilesStay.of_inode? (w.inode?_setBlock _ _)).trans
      (.touch fun _ _ => ⟨rfl, .inr ⟨rfl, rfl⟩⟩)
  refine wp_yaf_delete_of_forall hi hj (fun _ => trivial) (.refl w) ?_ ?_
  · intro d off j' _ _
    exact (hunlink d off).trans (.touch fun _ _ => ⟨rfl, .inr ⟨rfl, rfl⟩⟩)
  · intro d off j' _ _ _ _ _
    set w₁ := w.unlink dir (DNO2BID w.sb d) off
    have hbits : FilesStay w₁ ((w₁.unmark j'.sized).markI ino false) := by
      refine .of_inode? fun m => ?_
      rw [World.markI, World.inode?_setBlock, World.inode?, World.inode?,
        (World.unmark_consts _ _).2.2.2.1]
    exact (hunlink d off).trans (hbits.trans (.touch fun _ _ => ⟨rfl, .inr ⟨rfl, rfl⟩⟩))

end Steps

/-! ### Sizes that fit -/

/-- A change of the size of a file stays within the blocks assigned to it. -/
def Op.Fits (w : World) : Op → Prop
  | .setSize ino size => ∀ i, w.inode? ino = some i →
      size ≤ YAF_BLOCK_SIZE * countAssigned i YAF_IBLOCKS 0
  | _ => True

instance (w : World) (op : Op) : Decidable (op.Fits w) :=
  match op with
  | .setSize ino size =>
      decidable_of_iff ((w.inode? ino).all fun i =>
        decide (size ≤ YAF_BLOCK_SIZE * countAssigned i YAF_IBLOCKS 0))
        ((Option.all_eq_true _ _).trans (forall₂_congr fun _ _ => decide_eq_true_iff))
  | .lookup .. | .create .. | .mkdir .. | .unlink .. | .rmdir .. | .write .. | .openFile .. |
    .closeFile .. | .writeInode .. | .evict .. | .tick .. | .device .. => isTrue trivial

/-- **The blocks assigned cover the sizes of the files.** -/
def Covered (w : World) : Prop :=
  ∀ n i, w.inode? n = some i → S_ISDIR i.i_mode = false →
    i.i_size ≤ YAF_BLOCK_SIZE * countAssigned i YAF_IBLOCKS 0

/-- Files that stay as they are stay covered. -/
theorem FilesStay.covered {w w' : World} (h : FilesStay w w') (hc : Covered w) : Covered w' := by
  intro n i' hi' hd
  rcases h n i' hi' hd with h₀ | ⟨i, hi, hdi, hsize, hblk⟩
  · rw [h₀]
    exact Nat.zero_le _
  · have hsame : ∀ k, i'.blk k = i.blk k := fun k => by rw [Inode.blk, Inode.blk, hblk]
    rw [size_le_iff]
    intro k hk
    rw [hsame]
    rw [hsize] at hk
    exact (size_le_iff i).1 (hc n i hi hdi) k hk

section Write

variable {w : World} {ino : ℕ} {i : Inode}

/-- An inode with more blocks assigned: those from `lo` to `hi` at least. -/
structure Extends (i j : Inode) (lo hi : ℕ) : Prop where
  mode : j.i_mode = i.i_mode
  size : j.i_size = i.i_size
  blk : ∀ l, i.blk l ≠ RESERVED_DNO ∨ lo ≤ l ∧ l < hi → j.blk l ≠ RESERVED_DNO

theorem extends_assign (hi : w.inode? ino = some i) {rem k : ℕ} (hk : k + rem ≤ 8) :
    ∃ j, (w.assign ino rem k).inode? ino = some j ∧ Extends i j k (k + rem) := by
  induction rem generalizing w i k with
  | zero =>
      refine ⟨i, hi, rfl, rfl, fun l hl => hl.resolve_right ?_⟩
      omega
  | succ rem ih =>
      have hstep : (w.takeD.2.edit ino fun i => i.setBlk k w.takeD.1).inode? ino =
          some (i.setBlk k w.takeD.1) := by
        rw [World.inode?_edit, if_pos rfl, World.inode?_takeD, hi]
        rfl
      obtain ⟨j, hj, hext⟩ := ih hstep (k := k + 1) (by omega)
      refine ⟨j, hj, hext.mode, hext.size, fun l hl => hext.blk l ?_⟩
      rw [blk_setBlk i (by omega)]
      split
      · exact .inl w.takeD_fst_ne
      · rcases hl with hl | hl
        · exact .inl hl
        · exact .inr (by omega)

theorem inode?_assign_of_ne (rem k : ℕ) {n : ℕ} (hn : n ≠ ino) :
    (w.assign ino rem k).inode? n = w.inode? n := by
  induction rem generalizing w k with
  | zero => rfl
  | succ rem ih =>
      rw [World.assign, ih, World.inode?_edit, if_neg hn, World.inode?_takeD]

/-- **After a request for entry `k`** all entries up to it are assigned. -/
theorem extends_mapped (hi : w.inode? ino = some i) {k : ℕ} (hk : k < 8) :
    ∃ j, (w.mapped ino i k).inode? ino = some j ∧ Extends i j 0 (k + 1) := by
  obtain ⟨-, hlow, -⟩ := countAssigned_spec i
  rw [World.mapped]
  split
  · rename_i hge
    obtain ⟨j, hj, hext⟩ := extends_assign hi
      (show countAssigned i YAF_IBLOCKS 0 + (k + 1 - countAssigned i YAF_IBLOCKS 0) ≤ 8 by omega)
    refine ⟨j, ?_, hext.mode, hext.size, fun l hl => hext.blk l ?_⟩
    · rw [World.inode?_touch, if_pos rfl, hj]
      rfl
    · rcases Nat.lt_or_ge l (countAssigned i YAF_IBLOCKS 0) with hlt | hle
      · exact .inl (hlow l hlt)
      · exact hl.imp id fun h => by omega
  · refine ⟨i, hi, rfl, rfl, fun l hl => ?_⟩
    rcases hl with hl | hl
    · exact hl
    · exact hlow l (by omega)

theorem inode?_mapped_of_ne (k : ℕ) {n : ℕ} (hn : n ≠ ino) :
    (w.mapped ino i k).inode? n = w.inode? n := by
  rw [World.mapped]
  split
  · rw [World.inode?_touch, if_neg hn, inode?_assign_of_ne _ _ hn]
  · rfl

/-- **A write covers what it reaches.** -/
theorem write_covered (hok : w.sb.Ok w.nblk) (hi : w.inode? ino = some i)
    (hc : Covered w) {pos copied : ℕ} {data : List UInt8} (hlen : 0 < data.length)
    (hpage : pos % 4096 + data.length ≤ 4096) (hcopied : copied ≤ data.length) :
    wp (vfs_write ino pos data copied) (fun _ w' => Covered w') (fun _ => True) w := by
  refine wp_vfs_write hi hok hlen (fun _ => hc) fun hle j hj => ?_
  obtain ⟨j₀, hj₀, hext⟩ := extends_mapped hi (show pos / 4096 < 8 by omega)
  rw [hj, Option.some_inj] at hj₀
  subst hj₀
  have hmap : Covered (w.mapped ino i (pos / 4096)) := by
    intro n i' hi' hd
    by_cases hn : n = ino
    · subst n
      rw [hj, Option.some_inj] at hi'
      subst hi'
      rw [hext.mode] at hd
      rw [size_le_iff]
      intro k hk
      rw [hext.size] at hk
      exact hext.blk k (.inl ((size_le_iff i).1 (hc ino i hi hd) k hk))
    · rw [inode?_mapped_of_ne _ hn] at hi'
      exact hc n i' hi' hd
  split
  · obtain ⟨hother, j', hj', hmode, hblk, hsize⟩ := inode?_stored hj pos copied
      (DNO2BID w.sb (j.blk (pos / 4096)).toNat) data
    intro n i' hi' hd
    by_cases hn : n = ino
    · subst n
      rw [hj', Option.some_inj] at hi'
      subst hi'
      have hsame : ∀ k, j'.blk k = j.blk k := fun k => by rw [Inode.blk, Inode.blk, hblk]
      rw [hmode] at hd
      rw [size_le_iff]
      intro k hk
      rw [hsame]
      rcases hsize with hs | hs
      · rw [hs] at hk
        exact (size_le_iff j).1 (hmap ino j hj hd) k hk
      · rw [hs, YAF_BLOCK_SIZE_eq] at hk
        exact hext.blk k (.inr ⟨Nat.zero_le _, by omega⟩)
    · rw [hother n hn] at hi'
      exact hmap n i' hi' hd
  · exact hmap

end Write

/-! ### Runs -/

section Runs

variable {w w' : World} {op : Op} {r : Reply}

/-- A removal leaves the other files as they are. -/
theorem remove_filesStay {dir ino : ℕ} (hdir : w.holds S_ISDIR dir = true) {j : Inode}
    (hj : w.inode? ino = some j) (q : Qstr) :
    wp (remove (yaf_delete dir q ino) ino) (fun _ w' => FilesStay w w') (fun _ => True) w := by
  refine wp_remove (wp_mono (delete_filesStay hdir hj q) (fun r w' h => ?_) fun _ h => h)
  split
  · exact h.trans (.iput w' ino)
  · exact h

/-- **A step whose change of size fits keeps the files covered.** -/
theorem step_covered (hs : Solid w) (hc : Covered w) (hup : op.isUpdate = true) (hpre : op.Pre w)
    (hfits : op.Fits w) : wp (step op) (fun _ w' => Covered w') (fun _ => True) w := by
  cases op with
  | create dir q mode =>
      refine wp_mono (create_filesStay hs.held.layout hpre.1 q (mode ||| S_IFREG))
        (fun _ _ h => ?_) fun _ h => h
      exact h.covered hc
  | mkdir dir q mode =>
      refine wp_mono (create_filesStay hs.held.layout hpre.1 q (mode ||| S_IFDIR))
        (fun _ _ h => ?_) fun _ h => h
      exact h.covered hc
  | unlink dir q ino =>
      obtain ⟨hdir, -, hfile⟩ := hpre
      obtain ⟨j, hj, -⟩ := World.exists_of_holds hfile
      simp only [step, wp_bind, wp_pure]
      exact wp_mono (remove_filesStay hdir hj q) (fun _ _ h => h.covered hc) fun _ h => h
  | rmdir dir q ino =>
      obtain ⟨hdir, -, hsub⟩ := hpre
      obtain ⟨j, hj, -⟩ := World.exists_of_holds hsub
      simp only [step, wp_bind, wp_pure]
      refine wp_remove ?_
      rw [yaf_rmdir, wp_bind, wp_getInode hj]
      split
      · rw [wp_pure, if_neg (by decide)]
        exact hc
      · refine wp_mono (delete_filesStay hdir hj q) (fun r w' h => ?_) fun _ h => h
        split
        · exact (h.trans (.iput w' ino)).covered hc
        · exact h.covered hc
  | write ino pos data copied =>
      obtain ⟨hreg, hlen, hpage, hcopied⟩ := hpre
      obtain ⟨i, hi, -⟩ := World.exists_of_holds hreg
      rw [YAF_BLOCK_SIZE_eq] at hpage
      simp only [step, wp_bind, wp_pure]
      exact write_covered hs.held.layout hi hc hlen hpage hcopied
  | setSize ino size =>
      simp only [step, simple_setattr, wp_bind, wp_modifyInode, wp_mark_inode_dirty, wp_pure,
        World.touch_edit, id]
      intro n i' hi' hd
      rw [World.inode?_touch] at hi'
      split at hi'
      · subst n
        obtain ⟨i, hi, rfl⟩ := Option.map_eq_some_iff.1 hi'
        exact hfits i hi
      · exact hc n i' hi' hd
  | tick | device => exact hc
  | lookup | openFile | closeFile | writeInode | evict => simp [Op.isUpdate] at hup

/-- The files of a volume that was not looked up are covered, in runs whose changes of size
fit. -/
theorem covered_of_run {v : Volume} (h : v.Ok) {l : List (Op × Reply)}
    (hrun : Run step (fun w op => op.Granted w ∧ op.Fits w) (fresh v) l w) : Covered w := by
  rw [Volume.fresh_eq h] at hrun
  refine (hrun.invariant (I := fun w => Solid w ∧ Covered w) ⟨solid_mounted h, ?_⟩ ?_).2
  · intro n i hi _
    rw [Volume.inode?_mounted] at hi
    split at hi
    · cases hi
      exact Nat.zero_le _
    · simp at hi
  · rintro w op r w' ⟨hs, hc⟩ ⟨⟨hpre, hup, -, -⟩, hfits⟩ hstep
    exact ⟨solid_of_step hs hup hpre hstep, (step_covered hs hc hup hpre hfits).ok hstep⟩

/-- A block that is marked, when its owner is about to be released. -/
theorem releasesOwn_unlink (hb : Backed w) {n : ℕ} {i : Inode}
    (hi : w.inode? n = some i) (dir d off : ℕ) :
    (w.unlink dir (DNO2BID w.sb d) off).ReleasesOwn i ↔
      i.i_size ≤ YAF_BLOCK_SIZE * countAssigned i YAF_IBLOCKS 0 := by
  have hsame : (w.unlink dir (DNO2BID w.sb d) off).view.dset = w.view.dset := by
    rw [World.unlink, World.dset_touch, World.dset_setBlock]
    rw [DNO2BID_eq]
    omega
  refine releasesOwn_iff (fun k hk => ?_) fun k l hk he => (hb.sole n n i i k l hi hi hk he).2
  rw [hsame]
  exact (hb.marked n i k hi hk).2

end Runs

/-- **What the deletion of a file touches.**  In runs whose requests for blocks are granted, the
loop of `yaf_delete` touches only what the file owns exactly when the blocks assigned to it cover
its size; and this is so for every file when no change of a size goes beyond them. -/
theorem releasesOwn_of_run {v : Volume} (h : v.Ok) :
    (∀ l w, Run step (fun w op => op.Granted w) (fresh v) l w →
      ∀ n i, w.inode? n = some i → S_ISDIR i.i_mode = false → ∀ dir d off,
        ((w.unlink dir (DNO2BID w.sb d) off).ReleasesOwn i ↔
          i.i_size ≤ YAF_BLOCK_SIZE * countAssigned i YAF_IBLOCKS 0)) ∧
    ∀ l w, Run step (fun w op => op.Granted w ∧ op.Fits w) (fresh v) l w →
      ∀ n i, w.inode? n = some i → S_ISDIR i.i_mode = false → ∀ dir d off,
        (w.unlink dir (DNO2BID w.sb d) off).ReleasesOwn i := by
  constructor
  · intro l w hrun n i hi _ dir d off
    exact releasesOwn_unlink (backed_of_run h hrun).2 hi dir d off
  · intro l w hrun n i hi hd dir d off
    obtain ⟨-, hb⟩ := backed_of_run h (hrun.mono fun _ _ hop => hop.1)
    rw [releasesOwn_unlink hb hi]
    exact covered_of_run h hrun n i hi hd

/-- A file of two blocks, of which its size was made to reach to the end. -/
theorem releasesOwn_small : ∃ l w i,
    Run step (fun w op => op.Granted w ∧ op.Fits w) (fresh .small) l w ∧
      w.inode? 2 = some i ∧ i.i_size = 8192 ∧
        ∀ dir d off, (w.unlink dir (DNO2BID w.sb d) off).ReleasesOwn i := by
  obtain ⟨l, w, hrun, hp⟩ := Volume.exists_run Volume.small_ok
    (fun w op => op.Granted w ∧ op.Fits w)
    [.create 1 (.letters 0) 0, .write 2 5000 [7] 1, .setSize 2 8192]
    (fun _ w => (w.inode? 2).any fun i : Inode =>
      !S_ISDIR i.i_mode && decide (i.i_size = 8192))
    (by decide +kernel)
  obtain ⟨i, hi, hp⟩ := (Option.any_eq_true _ _).1 hp
  rw [Bool.and_eq_true, Bool.not_eq_true', decide_eq_true_eq] at hp
  exact ⟨l, w, i, hrun, hi, hp.2, (releasesOwn_of_run Volume.small_ok).2 l w hrun 2 i hi hp.1⟩

/-- **The size of an empty file is set to one**: its deletion takes `RESERVED_DNO` for a block.
The size of a file of eight blocks is set beyond them: its deletion reads past the `i_block`
array. -/
theorem not_releasesOwn_setSize :
    (∃ l w i, Run step (fun w op => op.Pre w) (fresh .small) l w ∧ w.inode? 2 = some i ∧
      ¬(w.unlink ROOT_INO (DNO2BID w.sb 0) 0).ReleasesOwn i ∧
        value (step (.unlink ROOT_INO (.letters 0) 2)) w = .error .panic) ∧
    ∃ l w i, Run step (fun w op => op.Pre w) (fresh .small) l w ∧ w.inode? 2 = some i ∧
      ¬(w.unlink ROOT_INO (DNO2BID w.sb 0) 0).ReleasesOwn i ∧
        value (step (.unlink ROOT_INO (.letters 0) 2)) w = .error .outOfBounds := by
  constructor
  · obtain ⟨l, w, hrun, hp⟩ := Volume.exists_run Volume.small_ok (fun w op => op.Pre w)
      [.create 1 (.letters 0) 0, .setSize 2 1]
      (fun _ w => decide (value (step (.unlink ROOT_INO (.letters 0) 2)) w = .error .panic) &&
        (w.inode? 2).any fun i : Inode => decide (i.blk 0 = RESERVED_DNO) && decide (i.i_size = 1))
      (by decide +kernel)
    rw [Bool.and_eq_true, decide_eq_true_eq] at hp
    obtain ⟨hstop, hp⟩ := hp
    obtain ⟨i, hi, hp⟩ := (Option.any_eq_true _ _).1 hp
    rw [Bool.and_eq_true, decide_eq_true_eq, decide_eq_true_eq] at hp
    refine ⟨l, w, i, hrun, hi, fun h => ?_, hstop⟩
    have hlt : 0 * YAF_BLOCK_SIZE < i.i_size := by
      rw [hp.2]
      decide
    exact (h 0 hlt).2.1 hp.1
  · obtain ⟨l, w, hrun, hp⟩ := Volume.exists_run Volume.small_ok (fun w op => op.Pre w)
      [.create 1 (.letters 0) 0, .write 2 32767 [7] 1, .setSize 2 32769]
      (fun _ w =>
        decide (value (step (.unlink ROOT_INO (.letters 0) 2)) w = .error .outOfBounds) &&
          (w.inode? 2).any fun i : Inode => decide (i.i_size = 32769)) (by decide +kernel)
    rw [Bool.and_eq_true, decide_eq_true_eq] at hp
    obtain ⟨hstop, hp⟩ := hp
    obtain ⟨i, hi, hp⟩ := (Option.any_eq_true _ _).1 hp
    rw [decide_eq_true_eq] at hp
    refine ⟨l, w, i, hrun, hi, fun h => ?_, hstop⟩
    have hlt : 8 * YAF_BLOCK_SIZE < i.i_size := by
      rw [hp]
      decide
    exact absurd (h 8 hlt).1 (by decide)

end Yaf
