/-
**What the operations do in any state.**

Some of what is proved about the driver does not need a sound volume: it holds because an
operation can only make changes of a few kinds, whatever the directories and the block maps hold.
This module lists these kinds (`Yaf.Change`) and shows that creating an entry and writing to a
file are made of them.  An invariant of weak states is then checked once for each kind.

`Yaf.Changes O S m` is a sequence of changes that asks for `m` data blocks.  The parameter `O`
says whether the search for an inode number may overflow: it does when the first block of the
inode bitmap is full, and then the driver clears a bit of whatever block lies at the place
computed from `-ENOENT`.  The parameter `S` says whether the block maps of files have no holes.

Main definitions:

* `Yaf.Change`, `Yaf.Changes` — one change, and a sequence of changes;
* `Yaf.World.wantsBlock`, `Yaf.World.callsInode` — whether a creation asks for a data block, and
  for an inode number;
* `Yaf.Op.requests` — how many data blocks an operation asks for.

Main results:

* `Yaf.create_phased`, `Yaf.write_phased` — **the operations are sequences of changes**, in which
  the blocks are taken first;
* `Yaf.Changes.held` — changes keep the in-memory inodes in range.
-/

import Yaf.Vfs

set_option relaxedAutoImplicit false
set_option autoImplicit false

namespace Yaf

open Prog

/-! ### Requests -/

namespace World

/-- Whether the search for a free dentry asks for a data block. -/
def wantsBlock (w : World) (dir : ℕ) : Bool :=
  match w.inode? dir with
  | some di =>
      match (scanDir isFree di YAF_IBLOCKS 0).run w with
      | .ok (.done _, _) =>
          decide (di.i_size / YAF_DENTRY_SIZE ≠ MAX_DENTRYS) &&
            decide (di.i_size % YAF_BLOCK_SIZE = 0)
      | _ => false
  | none => false

/-- Whether a creation gets as far as asking for an inode number. -/
def callsInode (w : World) (dir : ℕ) (q : Qstr) : Bool :=
  decide (q.len ≤ YAF_DENTRY_NAME_LEN) &&
    match (yaf_get_free_dentry dir).run w with
    | .ok (r, w₁) =>
        let k := (r % 2 ^ 64).toNat / YAF_BLOCK_SIZE
        match w₁.inode? dir with
        | some i => decide (k < YAF_IBLOCKS) && w₁.readable .dentry (DNO2BID w₁.sb (i.blk k).toNat)
        | none => false
    | .error _ => false

/-- The first block of the inode bitmap has no clear bit. -/
def inodesFull (w : World) : Bool := (Mem.clears w.ibit 32768).isEmpty

/-- How many entries of `i_block` a piece of a write needs beyond those assigned. -/
def wantsBlocks (w : World) (ino pos len : ℕ) : ℕ :=
  match w.inode? ino with
  | some i => if pos + len > MAX_FILESIZE then 0
      else pos / YAF_BLOCK_SIZE + 1 - countAssigned i YAF_IBLOCKS 0
  | none => 0

end World

/-- How many data blocks an operation asks for. -/
def Op.requests (w : World) : Op → ℕ
  | .create dir q _ | .mkdir dir q _ =>
      if q.len ≤ YAF_DENTRY_NAME_LEN then (w.wantsBlock dir).toNat else 0
  | .write ino pos data _ => w.wantsBlocks ino pos data.length
  | _ => 0

/-- Whether an operation asks for an inode number while the first block of the bitmap is full. -/
def Op.overflows (w : World) : Op → Bool
  | .create dir q _ | .mkdir dir q _ => w.callsInode dir q && w.inodesFull
  | _ => false

/-! ### Changes -/

/-- **A change that asks for no data block.** -/
inductive Change (O : Prop) : World → World → Prop
  | data (w : World) (d : ℕ) (b : Block) : Change O w (w.setBlock (DNO2BID w.sb d) b)
  | touch (w : World) (n : ℕ) (f : Inode → Inode) (hmode : ∀ i, (f i).i_mode = i.i_mode)
      (hblk : ∀ i, (f i).i_block = i.i_block)
      (hsize : ∀ i, w.inode? n = some i → (f i).i_size < 2 ^ 32)
      (hlink : ∀ i, w.inode? n = some i → S_ISDIR i.i_mode = true ∨ (f i).i_nlink = i.i_nlink) :
      Change O w (w.touch n f)
  | create (w : World) (n : ℕ) (d : Inode) (mode : UInt16) (dir b off : ℕ) (q : Qstr)
      (hn : (Mem.clears w.ibit 32768).head? = some n) (h₀ : n ≠ 0) (hlt : n < w.sb.nr_i * 64)
      {i : Inode} (hi : w.inode? dir = some i) (hdir : S_ISDIR i.i_mode = true) :
      Change O w ((w.create n d mode).link dir (DNO2BID w.sb b) off n q)
  | reserve (w : World) (hn : (Mem.clears w.ibit 32768).head? = some 0) :
      Change O w (w.markI 0 true)
  | overflow (w : World) (h : O) (hbit : w.ibit NO_BIT.toNat = true) :
      Change O w (w.markI NO_BIT.toNat false)
  | lock (w : World) (n : ℕ) (hn : w.icache n = none) (hio : w.io ≠ ioOk) :
      Change O w (w.lock n)
  | tick (w : World) (now : ℤ) (fsuid fsgid : UInt32) :
      Change O w { w with now := now, fsuid := fsuid, fsgid := fsgid }

/-- **A sequence of changes that asks for `m` data blocks.** -/
inductive Changes (O S : Prop) : ℕ → World → World → Prop
  | nil (w : World) : Changes O S 0 w w
  | step {w w₁ w₂ : World} {m : ℕ} :
      Change O w w₁ → Changes O S m w₁ w₂ → Changes O S m w w₂
  | take {w w₂ : World} {m : ℕ} (n k : ℕ) {i : Inode} (hi : w.inode? n = some i) (hk : k < 8)
      (hres : S → i.blk k = RESERVED_DNO)
      (hpre : S_ISDIR i.i_mode = true ∨ ∀ j < k, i.blk j ≠ RESERVED_DNO)
      (h : Changes O S m (w.takeD.2.touch n fun i => i.setBlk k w.takeD.1) w₂) :
      Changes O S (m + 1) w w₂

namespace Changes

variable {O S : Prop} {m m' : ℕ} {w w₁ w₂ : World}

theorem single (h : Change O w w₁) : Changes O S 0 w w₁ := .step h (.nil _)

theorem trans (h : Changes O S m w w₁) (h' : Changes O S m' w₁ w₂) : Changes O S (m + m') w w₂ := by
  induction h with
  | nil => rwa [Nat.zero_add]
  | step hc _ ih => exact .step hc (ih h')
  | take n k hi hk hres hpre _ ih =>
      rw [Nat.add_right_comm]
      exact .take n k hi hk hres hpre (ih h')

theorem snoc (h : Changes O S m w w₁) (h' : Change O w₁ w₂) : Changes O S m w w₂ :=
  h.trans (single h')

end Changes

/-- **Blocks that are taken before anything else changes.** -/
inductive Takes (S : Prop) : ℕ → World → World → Prop
  | nil (w : World) : Takes S 0 w w
  | cons {w w₂ : World} {m : ℕ} (n k : ℕ) {i : Inode} (hi : w.inode? n = some i) (hk : k < 8)
      (hres : S → i.blk k = RESERVED_DNO)
      (hpre : S_ISDIR i.i_mode = true ∨ ∀ j < k, i.blk j ≠ RESERVED_DNO)
      (h : Takes S m (w.takeD.2.touch n fun i => i.setBlk k w.takeD.1) w₂) :
      Takes S (m + 1) w w₂

theorem Takes.changes {O S : Prop} {m : ℕ} {w w₁ : World} (h : Takes S m w w₁) :
    Changes O S m w w₁ := by
  induction h with
  | nil => exact .nil _
  | cons n k hi hk hres hpre _ ih => exact .take n k hi hk hres hpre ih

/-- A sequence of changes in which the blocks are taken first. -/
def Phased (O S : Prop) (m : ℕ) (w w' : World) : Prop :=
  ∃ w₁, Takes S m w w₁ ∧ Changes O S 0 w₁ w'

namespace Phased

variable {O S : Prop} {m : ℕ} {w w₁ w₂ : World}

theorem of_changes (h : Changes O S 0 w w₁) : Phased O S 0 w w₁ := ⟨w, .nil w, h⟩

theorem changes (h : Phased O S m w w₁) : Changes O S m w w₁ := by
  obtain ⟨w', ht, hc⟩ := h
  exact ht.changes.trans hc

theorem trans (h : Phased O S m w w₁) (h' : Changes O S 0 w₁ w₂) : Phased O S m w w₂ := by
  obtain ⟨w', ht, hc⟩ := h
  exact ⟨w', ht, hc.trans h'⟩

end Phased

theorem Change.held {O : Prop} {w w' : World} (h : Change O w w') (hh : w.Held) : w'.Held := by
  cases h with
  | data d b => exact hh.setBlock _ _
  | touch n f _ _ hsize _ => exact hh.touch hsize
  | create n d mode dir b off q _ _ hlt _ _ =>
      have hnew : (w.create n d mode).Held :=
        (hh.markI n true).setCore rfl hlt (Nat.two_pow_pos 32)
      refine (hnew.setBlock _ _).touch fun i hi => ?_
      have hs := (hnew.setBlock _ _).size_of_inode? hi
      exact hs
  | reserve => exact hh.markI _ _
  | overflow => exact hh.markI _ _
  | lock n hn => exact hh.lock hn
  | tick => exact ⟨hh.layout, hh.core⟩

theorem World.Held.takeD {w : World} (hh : w.Held) : w.takeD.2.Held := by
  rcases w.takeD_snd with h | ⟨d, h⟩ <;> rw [h]
  · exact hh
  · exact hh.markD d true

theorem World.Held.take {w : World} (hh : w.Held) (n k : ℕ) (d : UInt32) :
    (w.takeD.2.touch n fun i => i.setBlk k d).Held := by
  refine hh.takeD.touch fun i hi => ?_
  rw [World.inode?_takeD] at hi
  have hs := hh.size_of_inode? hi
  exact hs

/-- **Changes keep the in-memory inodes in range.** -/
theorem Changes.held {O S : Prop} {m : ℕ} {w w' : World} (h : Changes O S m w w') (hh : w.Held) :
    w'.Held := by
  induction h with
  | nil => exact hh
  | step hc _ ih => exact ih (hc.held hh)
  | take n k _ _ _ _ _ ih => exact ih (hh.take n k _)

/-! ### Creation -/

section Create

variable {w : World} {dir : ℕ} {i : Inode} {O S : Prop}

theorem append_changes (w : World) {doff : ℕ} (hk : doff / 4096 < 8) (dno : UInt32) :
    Changes O S 0 w (w.append dir doff dno) :=
  .step (.data w _ _) (.single (.touch _ _ _ (fun _ => rfl) (fun _ => rfl)
    (fun _ _ => by simp only [Inode.setTimes]; omega) fun _ _ => .inr rfl))

/-- A block that was attached is as good as one that was attached and marked dirty, since the
append that follows marks the directory. -/
theorem append_attach (w : World) (dir k doff : ℕ) (dno : UInt32) :
    (w.attach dir k).append dir doff dno =
      (w.takeD.2.touch dir fun i => i.setBlk k w.takeD.1).append dir doff dno := by
  simp only [World.attach, World.append, World.setBlock_edit, World.setBlock_touch,
    World.touch_edit, World.touch_touch, World.sb_edit, World.sb_touch, World.disk_edit,
    World.disk_touch, World.now_edit, World.now_touch]

/-- The inode of a directory with one slot more. -/
theorem inode?_append_eq (hi : w.inode? dir = some i) (doff : ℕ) (dno : UInt32) :
    (w.append dir doff dno).inode? dir =
      some (({ i with i_size := doff + 32 } : Inode).setTimes w.now) := by
  rw [World.append, World.inode?_touch, if_pos rfl, World.inode?_setBlock, hi]
  rfl

theorem inode?_append (hi : w.inode? dir = some i) (doff : ℕ) (dno : UInt32) :
    ∃ j, (w.append dir doff dno).inode? dir = some j ∧ j.i_mode = i.i_mode :=
  ⟨_, inode?_append_eq hi doff dno, rfl⟩

theorem inodesFull_eq (hh : w.Held) :
    w.inodesFull = (Mem.clears w.view.iset 32768).isEmpty := by
  rw [World.inodesFull, hh.clears_ibit]

/-- The search for a free dentry does not touch the inode bitmap. -/
theorem iset_append (w : World) (dir doff : ℕ) (dno : UInt32) :
    (w.append dir doff dno).view.iset = w.view.iset := by
  rw [World.append, World.iset_touch, World.iset_setBlock]
  rw [DNO2BID_eq]
  omega

theorem iset_take (w : World) (n : ℕ) (f : Inode → Inode) :
    (w.takeD.2.touch n f).view.iset = w.view.iset := by
  rw [World.iset_touch]
  rcases w.takeD_snd with h | ⟨d, h⟩ <;> rw [h]
  rw [World.markD, World.iset_setBlock]
  rw [IDXD2BID_eq]
  omega

/-- The data blocks are not touched when one is handed out. -/
theorem data_takeD (hok : w.sb.Ok w.nblk) : w.takeD.2.view.data = w.view.data := by
  rcases w.takeD_cases with h | ⟨h, -⟩ | ⟨d, hd, h⟩ <;> rw [h]
  have hlt := (Mem.mem_clears.1 (List.mem_of_head? hd)).1
  have hpos := hok.dbp_pos
  rw [World.view_markD w (by omega)]
  rfl

theorem World.exists_of_holds {w : World} {kind : UInt16 → Bool} {n : ℕ}
    (h : w.holds kind n = true) : ∃ i, w.inode? n = some i ∧ kind i.i_mode = true := by
  unfold World.holds at h
  cases hi : w.inode? n with
  | none => simp [hi] at h
  | some i => exact ⟨i, rfl, by simpa [hi] using h⟩

/-- What the search for a free dentry leaves behind, with the block it asked for. -/
theorem get_free_dentry_phased (hh : w.Held) (hi : w.inode? dir = some i)
    (hdir : S_ISDIR i.i_mode = true) :
    wp (yaf_get_free_dentry dir) (fun _ w₁ => Phased O S (w.wantsBlock dir).toNat w w₁ ∧
      w₁.view.iset = w.view.iset ∧ ∃ j, w₁.inode? dir = some j ∧ S_ISDIR j.i_mode = true)
      (fun _ => True) w := by
  have hsame : Phased O S 0 w w ∧ w.view.iset = w.view.iset ∧
      ∃ j, w.inode? dir = some j ∧ S_ISDIR j.i_mode = true :=
    ⟨.of_changes (.nil w), rfl, i, hi, hdir⟩
  have happend : ∀ doff : ℕ, doff / 4096 < 8 → ∀ dno, Phased O S 0 w (w.append dir doff dno) ∧
      (w.append dir doff dno).view.iset = w.view.iset ∧
        ∃ j, (w.append dir doff dno).inode? dir = some j ∧ S_ISDIR j.i_mode = true := by
    intro doff hk dno
    obtain ⟨j, hj, hmode⟩ := inode?_append hi doff dno
    exact ⟨.of_changes (append_changes w hk dno), iset_append w dir doff dno, j, hj, by rw [hmode, hdir]⟩
  have hattach : ∀ doff : ℕ, doff / 4096 < 8 → i.blk (doff / 4096) = RESERVED_DNO →
      Phased O S 1 w ((w.attach dir (doff / 4096)).append dir doff w.takeD.1) ∧
      ((w.attach dir (doff / 4096)).append dir doff w.takeD.1).view.iset = w.view.iset ∧
        ∃ j, ((w.attach dir (doff / 4096)).append dir doff w.takeD.1).inode? dir = some j ∧
          S_ISDIR j.i_mode = true := by
    intro doff hk hres
    have htake : (w.takeD.2.touch dir fun i => i.setBlk (doff / 4096) w.takeD.1).inode? dir =
        some (i.setBlk (doff / 4096) w.takeD.1) := by
      rw [World.inode?_touch, if_pos rfl, World.inode?_takeD, hi]
      rfl
    rw [append_attach]
    obtain ⟨j, hj, hmode⟩ := inode?_append htake doff w.takeD.1
    refine ⟨⟨_, .cons dir _ hi hk (fun _ => hres) (.inl hdir) (.nil _), append_changes _ hk _⟩, ?_,
      j, hj, ?_⟩
    · rw [iset_append, iset_take]
    · rw [hmode]
      exact hdir
  have hscan : ∀ r w', (scanDir isFree i YAF_IBLOCKS 0).run w = .ok (r, w') → w' = w := by
    intro r w' hr
    exact (wp_scanDir_of_forall (Q := fun _ w' => w' = w) (E := fun _ => True)
      (fun _ => rfl) (fun _ => trivial) _ _).ok hr
  rw [yaf_get_free_dentry, wp_bind, wp_getInode hi, wp_bind]
  cases hrun : (scanDir isFree i YAF_IBLOCKS 0).run w with
  | error e => exact (wp_of_run_error hrun).2 trivial
  | ok p =>
      obtain ⟨r, w'⟩ := p
      obtain rfl := hscan r w' hrun
      rw [wp_of_run_ok hrun]
      cases r with
      | found doff =>
          have hwant : w'.wantsBlock dir = false := by simp only [World.wantsBlock, hi, hrun]
          rw [hwant]
          exact hsame
      | noRead =>
          have hwant : w'.wantsBlock dir = false := by simp only [World.wantsBlock, hi, hrun]
          rw [hwant]
          exact hsame
      | done doff =>
          have hwant : w'.wantsBlock dir = (decide (i.i_size / YAF_DENTRY_SIZE ≠ MAX_DENTRYS) &&
              decide (i.i_size % YAF_BLOCK_SIZE = 0)) := by
            simp only [World.wantsBlock, hi, hrun]
          rw [hwant]
          dsimp only
          split
          · rename_i hfull
            rw [decide_eq_false (not_not.2 hfull), Bool.false_and]
            exact hsame
          rename_i hfull
          rw [decide_eq_true hfull, Bool.true_and]
          split
          · rename_i halign
            rw [decide_eq_true halign, wp_bind]
            rcases Nat.lt_or_ge (doff / 4096) 8 with hk | hk
            · rw [wp_attachDentryBlock hi hh.layout hk]
              split
              · refine (wp_appendDentry_attach hi hk).2 ?_
                split
                · exact hattach doff hk ‹_›
                · trivial
              · trivial
            · simp only [attachDentryBlock, wp_bind, wp_yaf_get_free_dblock hh.layout.dbp_pos,
                World.takeD_fst_ne, if_false,
                wp_getInode ((World.inode?_takeD _ _).trans hi), YAF_BLOCK_SIZE_eq,
                wp_iblock_of_le _ hk]
          · rename_i halign
            rw [decide_eq_false halign]
            rcases Nat.lt_or_ge (doff / 4096) 8 with hk | hk
            · rw [wp_appendDentry hi hk]
              split
              · exact happend doff hk _
              · trivial
            · simp only [appendDentry, wp_bind, wp_get, wp_getInode hi, YAF_BLOCK_SIZE_eq,
                wp_iblock_of_le _ hk]

/-- What the second half of a creation leaves behind. -/
theorem linkDentry_changes (hh : w.Held) (hi : w.inode? dir = some i)
    (hdir : S_ISDIR i.i_mode = true) {q : Qstr} {mode : UInt16} {doff : ℕ}
    (hov : doff / 4096 < 8 →
      w.readable .dentry (DNO2BID w.sb (i.blk (doff / 4096)).toNat) = true →
      w.inodesFull = true → O) :
    wp (linkDentry dir q mode doff) (fun _ w' => Changes O S 0 w w') (fun _ => True) w := by
  rcases Nat.lt_or_ge (doff / 4096) 8 with hk | hk
  · rw [wp_linkDentry hi hk]
    split
    · rename_i hdev
      refine wp_yaf_new_inode_of_forall hh.layout hi (fun _ => trivial) (fun _ => .nil w) ?_ ?_ ?_ ?_
      · intro hn hbit
        refine .single (.overflow w (hov hk hdev ?_) hbit)
        rw [World.inodesFull, List.isEmpty_iff]
        exact List.head?_eq_none_iff.1 hn
      · exact fun hn => .single (.reserve w hn)
      · intro n _ hlt hc hrd
        refine .single (.lock w n hc fun hio => ?_)
        have hdev := hh.layout.INO2BID_lt hlt
        rw [(w.markI n true).readable_of_ioOk hio .inode hdev] at hrd
        simp at hrd
      · exact fun n d hn h₀ hlt _ => .single (.create w n d mode dir _ _ q hn h₀ hlt hi hdir)
    · exact .nil w
  · rw [wp_linkDentry_of_le hi hk]
    trivial

/-- **Creating an entry is a sequence of changes.** -/
theorem create_phased (hh : w.Held) (hdir : w.holds S_ISDIR dir = true) (q : Qstr)
    (mode : UInt16) :
    wp (_yaf_create dir q mode) (fun _ w' =>
      Phased (w.callsInode dir q = true ∧ w.inodesFull = true) S
        (if q.len ≤ YAF_DENTRY_NAME_LEN then (w.wantsBlock dir).toNat else 0) w w')
      (fun _ => True) w := by
  obtain ⟨i, hi, hkind⟩ := World.exists_of_holds hdir
  rw [_yaf_create]
  split
  · rw [if_neg (Nat.not_le.2 ‹_›)]
    exact .of_changes (.nil w)
  · rename_i hlen
    rw [if_pos (Nat.not_lt.1 hlen), wp_bind]
    refine wp_mono (wp_and (get_free_dentry_phased
      (O := w.callsInode dir q = true ∧ w.inodesFull = true) (S := S) hh hi hkind)
      (wp_self _ _)) ?_ fun _ _ => trivial
    rintro r w₁ ⟨⟨hch, hiset, j, hj, hjdir⟩, hrun⟩
    have hh₁ := hch.changes.held hh
    refine wp_mono (linkDentry_changes (O := w.callsInode dir q = true ∧ w.inodesFull = true)
      hh₁ hj hjdir fun hk hdev hfull => ?_) (fun _ w' h => hch.trans h) fun _ h => h
    constructor
    · simp only [World.callsInode, hrun, hj, decide_eq_true (Nat.not_lt.1 hlen), Bool.true_and,
        YAF_BLOCK_SIZE_eq]
      rw [hdev, Bool.and_true]
      exact decide_eq_true hk
    · rw [inodesFull_eq hh, ← hiset, ← inodesFull_eq hh₁]
      exact hfull

end Create

/-! ### Writing -/

section Write

variable {w : World} {ino : ℕ} {i : Inode} {O S : Prop}

theorem takeD_edit (w : World) (n : ℕ) (f : Inode → Inode) :
    (w.edit n f).takeD = (w.takeD.1, w.takeD.2.edit n f) := by
  have hbit : (w.edit n f).dbit = w.dbit := rfl
  have hrd : (w.edit n f).readable .bitmap (BID_DBP_MIN (w.edit n f).sb) =
      w.readable .bitmap (BID_DBP_MIN w.sb) := rfl
  unfold World.takeD
  rw [hbit, hrd]
  split
  · cases (Mem.clears w.dbit 32768).head? <;> rfl
  · rfl

theorem takeD_touch (w : World) (n : ℕ) (f : Inode → Inode) :
    (w.touch n f).takeD = (w.takeD.1, w.takeD.2.touch n f) := by
  have hbit : (w.touch n f).dbit = w.dbit := rfl
  have hrd : (w.touch n f).readable .bitmap (BID_DBP_MIN (w.touch n f).sb) =
      w.readable .bitmap (BID_DBP_MIN w.sb) := rfl
  unfold World.takeD
  rw [hbit, hrd]
  split
  · cases (Mem.clears w.dbit 32768).head? <;> rfl
  · rfl

/-- An inode that is marked dirty in the end may be marked dirty at once. -/
theorem touch_assign (w : World) (f g : Inode → Inode) (rem k : ℕ) :
    ((w.edit ino f).assign ino rem k).touch ino g =
      ((w.touch ino f).assign ino rem k).touch ino g := by
  induction rem generalizing w f k with
  | zero => simp only [World.assign, World.touch_edit, World.touch_touch]
  | succ rem ih =>
      simp only [World.assign, takeD_edit, takeD_touch, World.edit_edit, World.edit_touch]
      exact ih _ _ _

theorem blk_setBlk (i : Inode) {k : ℕ} (hk : k < 8) (dno : UInt32) (j : ℕ) :
    (i.setBlk k dno).blk j = if j = k then dno else i.blk j := by
  rw [← Inode.attrs_blk, ← Inode.attrs_blk]
  exact i.attrs.blk_setBlk hk dno j

/-- The blocks `yaf_get_block` assigns. -/
theorem assign_phased (hh : w.Held) (hi : w.inode? ino = some i) {rem k : ℕ} (hk : k + rem ≤ 8)
    (hpre : ∀ j < k, i.blk j ≠ RESERVED_DNO)
    (hres : S → ∀ j, k ≤ j → i.blk j = RESERVED_DNO) :
    Phased O S rem w ((w.assign ino rem k).touch ino id) := by
  induction rem generalizing w i k with
  | zero =>
      exact .of_changes (.single (.touch w ino id (fun _ => rfl) (fun _ => rfl)
        (fun j hj => hh.size_of_inode? hj) fun _ _ => .inr rfl))
  | succ rem ih =>
      have hnew : (w.takeD.2.touch ino fun i => i.setBlk k w.takeD.1).inode? ino =
          some (i.setBlk k w.takeD.1) := by
        rw [World.inode?_touch, if_pos rfl, World.inode?_takeD, hi]
        rfl
      have hnext : Phased O S rem (w.takeD.2.touch ino fun i => i.setBlk k w.takeD.1)
          (((w.takeD.2.touch ino fun i => i.setBlk k w.takeD.1).assign ino rem (k + 1)).touch
            ino id) := by
        refine ih (hh.take ino k _) hnew (by omega) (fun j hj => ?_) fun h j hj => ?_
        · rw [blk_setBlk i (by omega)]
          split
          · exact w.takeD_fst_ne
          · exact hpre j (by omega)
        · rw [blk_setBlk i (by omega), if_neg (by omega)]
          exact hres h j (by omega)
      obtain ⟨w₁, ht, hc⟩ := hnext
      rw [World.assign, touch_assign]
      exact ⟨w₁, .cons ino k hi (by omega) (fun h => hres h k le_rfl) (.inr hpre) ht, hc⟩

theorem mapped_phased (hh : w.Held) (hi : w.inode? ino = some i) {iblk : ℕ} (hk : iblk < 8)
    (hres : S → ∀ j, countAssigned i YAF_IBLOCKS 0 ≤ j → i.blk j = RESERVED_DNO) :
    Phased O S (iblk + 1 - countAssigned i YAF_IBLOCKS 0) w (w.mapped ino i iblk) := by
  obtain ⟨hle, hpre, -⟩ := countAssigned_spec i
  unfold World.mapped
  dsimp only
  split
  · exact assign_phased hh hi (by omega) hpre hres
  · rw [Nat.sub_eq_zero_of_le (by omega)]
    exact .of_changes (.nil w)

theorem stored_changes (hh : w.Held) {pos copied d : ℕ} {data : List UInt8}
    (hs : pos + copied < 2 ^ 32) :
    Changes O S 0 w (w.stored ino i pos data copied (DNO2BID w.sb d)) := by
  unfold World.stored
  dsimp only
  set w₁ := w.setBlock (DNO2BID w.sb d)
    (storeBytes (w.disk (DNO2BID w.sb d)) (pos % 4096) (data.take copied))
  have hstore : Changes O S 0 w w₁ := .single (.data w d _)
  have hgrow : Changes O S 0 w (if pos + copied > i.i_size then
      w₁.touch ino fun i => { i with i_size := pos + copied } else w₁) := by
    split
    · exact hstore.snoc (.touch _ ino _ (fun _ => rfl) (fun _ => rfl) (fun _ _ => hs)
        fun _ _ => .inr rfl)
    · exact hstore
  split
  · exact hgrow
  · refine hgrow.snoc (.touch _ ino _ (fun _ => rfl) (fun _ => rfl) (fun j hj => ?_)
      fun _ _ => .inr rfl)
    have hsize := (hgrow.held hh).size_of_inode? hj
    exact hsize

/-- Storing the bytes of a piece changes the size to its end at most. -/
theorem inode?_stored (hi : w.inode? ino = some i) (pos copied bid : ℕ) (data : List UInt8) :
    (∀ n, n ≠ ino → (w.stored ino i pos data copied bid).inode? n = w.inode? n) ∧
      ∃ j, (w.stored ino i pos data copied bid).inode? ino = some j ∧ j.i_mode = i.i_mode ∧
        j.i_block = i.i_block ∧ (j.i_size = i.i_size ∨ j.i_size = pos + copied) := by
  set w₁ := w.setBlock bid (storeBytes (w.disk bid) (pos % 4096) (data.take copied)) with hw₁
  set w₂ := if pos + copied > i.i_size then
      w₁.touch ino fun i => { i with i_size := pos + copied } else w₁ with hw₂
  have hstored : w.stored ino i pos data copied bid = if copied < data.length then w₂
      else w₂.touch ino fun i => { i with i_ctime := w.now, i_mtime := w.now } := rfl
  have h₂ : (∀ n, n ≠ ino → w₂.inode? n = w.inode? n) ∧
      ∃ j, w₂.inode? ino = some j ∧ j.i_mode = i.i_mode ∧ j.i_block = i.i_block ∧
        (j.i_size = i.i_size ∨ j.i_size = pos + copied) := by
    rw [hw₂]
    split
    · refine ⟨fun n hn => ?_, { i with i_size := pos + copied }, ?_, rfl, rfl, .inr rfl⟩
      · rw [World.inode?_touch, if_neg hn, hw₁, World.inode?_setBlock]
      · rw [World.inode?_touch, if_pos rfl, hw₁, World.inode?_setBlock, hi]
        rfl
    · exact ⟨fun n _ => w.inode?_setBlock _ _ n, i, hi, rfl, rfl, .inl rfl⟩
  rw [hstored]
  split
  · exact h₂
  · obtain ⟨hother, j, hj, hmode, hblk, hsize⟩ := h₂
    refine ⟨fun n hn => ?_, { j with i_ctime := w.now, i_mtime := w.now }, ?_, hmode, hblk, hsize⟩
    · rw [World.inode?_touch, if_neg hn, hother n hn]
    · rw [World.inode?_touch, if_pos rfl, hj]
      rfl

/-- **Writing a piece of a file is a sequence of changes.** -/
theorem write_phased (hh : w.Held) (hi : w.inode? ino = some i) {pos copied : ℕ}
    {data : List UInt8} (hlen : 0 < data.length) (hcopied : copied ≤ data.length)
    (hres : S → ∀ j, countAssigned i YAF_IBLOCKS 0 ≤ j → i.blk j = RESERVED_DNO) :
    wp (vfs_write ino pos data copied)
      (fun _ w' => Phased O S (w.wantsBlocks ino pos data.length) w w') (fun _ => True) w := by
  have hwant : w.wantsBlocks ino pos data.length = if pos + data.length > 32768 then 0
      else pos / 4096 + 1 - countAssigned i YAF_IBLOCKS 0 := by
    simp only [World.wantsBlocks, hi]
    rfl
  refine wp_vfs_write hi hh.layout hlen (fun hbig => ?_) fun hle j hj => ?_
  · rw [hwant, if_pos hbig]
    exact .of_changes (.nil w)
  · have hmap := mapped_phased (O := O) hh hi (show pos / 4096 < 8 by omega) hres
    have hsb : (w.mapped ino i (pos / 4096)).sb = w.sb := (mapped_consts _).1
    rw [hwant, if_neg (Nat.not_lt.2 hle)]
    split
    · have hstore : Changes O S 0 (w.mapped ino i (pos / 4096))
          ((w.mapped ino i (pos / 4096)).stored ino j pos data copied
            (DNO2BID (w.mapped ino i (pos / 4096)).sb (j.blk (pos / 4096)).toNat)) :=
        stored_changes (hmap.changes.held hh) (by omega)
      rw [hsb] at hstore
      exact hmap.trans hstore
    · exact hmap

end Write

/-! ### Deletion -/

/-- The world after `iput`. -/
def World.iput (w : World) (ino : ℕ) : World :=
  match w.inode? ino with
  | some i => if i.i_nlink = 0 ∧ w.opens ino = 0 then w.setCore ino none else w
  | none => w

section Delete

variable {w : World} {dir ino : ℕ} {i j : Inode}

theorem wp_iput {Q : Unit → World → Prop} {E : Fault → Prop} :
    wp (iput ino) Q E w ↔ Q () (w.iput ino) := Iff.rfl

/-- The inode of a dentry, after the dentry was freed. -/
theorem inode?_unlink (dir : ℕ) (hj : w.inode? ino = some j) (bid off : ℕ) :
    ∃ j', (w.unlink dir bid off).inode? ino = some j' ∧ j'.i_mode = j.i_mode ∧
      j'.i_size = j.i_size ∧ j'.i_block = j.i_block ∧
      j'.i_nlink = if ino = dir then j.i_nlink - 1 else j.i_nlink := by
  rw [World.unlink, World.inode?_touch]
  split
  · subst ino
    rw [World.inode?_setBlock, hj]
    exact ⟨_, rfl, rfl, rfl, rfl, rfl⟩
  · exact ⟨j, hj, rfl, rfl, rfl, rfl⟩

/-- **What a deletion may leave behind, in any state.**  `j'` is the inode when its own link is
about to be dropped. -/
theorem wp_yaf_delete_of_forall (hi : w.inode? dir = some i)
    (hj : w.inode? ino = some j) {q : Qstr} {Q : ℤ → World → Prop} {E : Fault → Prop}
    (hE : ∀ e, E e) (hfail : Q (- EIO) w)
    (hkeep : ∀ d off j',
      (w.unlink dir (DNO2BID w.sb d) off).inode? ino = some j' → j'.i_nlink - 1 > 1 →
      Q 0 ((w.unlink dir (DNO2BID w.sb d) off).touch ino Inode.dropLink))
    (hfree : ∀ d off j',
      (w.unlink dir (DNO2BID w.sb d) off).inode? ino = some j' → ¬j'.i_nlink - 1 > 1 →
      j'.i_size ≤ 32768 → (w.unlink dir (DNO2BID w.sb d) off).Releasable j'.sized →
      ((w.unlink dir (DNO2BID w.sb d) off).unmark j'.sized).ibit ino = true →
      Q 0 ((((w.unlink dir (DNO2BID w.sb d) off).unmark j'.sized).markI ino false).touch ino
        Inode.dropLink)) :
    wp (yaf_delete dir q ino) Q E w := by
  rw [yaf_delete, wp_bind]
  refine wp_lookup_of_forall hi hE fun r => ?_
  rw [wp_bind, wp_assert]
  refine ⟨fun _ => ?_, fun _ => hE _⟩
  rcases Nat.lt_or_ge (r.toNat / 4096) 8 with hk | hk
  · obtain ⟨j', hj', -⟩ := inode?_unlink dir hj
      (DNO2BID w.sb (i.blk (r.toNat / 4096)).toNat) (r.toNat % 4096)
    rw [wp_unlinkDentry hi hk hj']
    split
    · dsimp only
      split
      · exact hkeep _ _ j' hj' ‹_›
      · rename_i hlink
        refine wp_putBlocks _ (fun hs hrel => ?_) fun _ => hE
        rw [Inode.sized_dropLink] at hrel ⊢
        rw [World.releasable_edit] at hrel
        rw [World.unmark_edit]
        rw [wp_yaf_put_inode (w := (World.unmark _ _).edit ino _)]
        split
        · rename_i hbit
          rw [World.markI_edit, World.touch_edit]
          exact hfree _ _ j' hj' hlink hs hrel hbit.2
        · exact hE _
    · exact hfail
  · rw [unlinkDentry, wp_bind, wp_get, wp_bind, wp_getInode hi, wp_bind, YAF_BLOCK_SIZE_eq,
      wp_iblock_of_le _ hk]
    exact hE _

/-- A removal is a call of the driver followed by `iput` when it succeeded. -/
theorem wp_remove {op : Driver ℤ} {Q : ℤ → World → Prop} {E : Fault → Prop}
    (h : wp op (fun r w' => if r = 0 then Q r (w'.iput ino) else Q r w') E w) :
    wp (remove op ino) Q E w := by
  rw [remove, wp_bind]
  refine wp_mono h (fun r w' hr => ?_) fun _ h => h
  split
  · rw [if_pos ‹_›] at hr
    exact hr
  · rw [if_neg ‹_›] at hr
    exact hr

end Delete

end Yaf
