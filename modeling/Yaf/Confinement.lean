/-
**Where the driver writes.**

The driver keeps no check on the numbers it finds on the device: an inode may name any block, and a
directory any inode.  Still it writes nothing but blocks that it could read before, and none of the
places it computes is that of the superblock.  This needs no assumption on what the device holds,
on which reads fail, or on what the VFS has checked.  With a page cache a page goes to the block it
is mapped to, and no page is mapped to the superblock.

Main definitions:

* `Yaf.Confined` — **only blocks behind the superblock and on the device have changed**;
* `Yaf.Confines` — a program all of whose outcomes are confined;
* `Yaf.Paged.Confines` — the same of programs with a page cache.

Main results:

* `Yaf.confined_if_bread`, `Yaf.confined_assert_bread` — what follows a read may write the block;
* `Yaf.confined_step` — every operation is confined;
* `Yaf.confined_of_run` — **and so is every run, from any state**;
* `Yaf.Paged.confines_step` — every event of a mount with a page cache is.
-/

import Yaf.Failures
import Yaf.Pages

set_option relaxedAutoImplicit false
set_option autoImplicit false

namespace Yaf

open Prog

variable {N : ℕ} {α : Type}

/-! ### Confined changes -/

/-- **Only blocks behind the superblock and on the device have changed**, seen from a device of `N`
blocks. -/
def Confined (N : ℕ) (w w' : World) : Prop :=
  w.nblk = N → w'.nblk = N ∧ w'.sb = w.sb ∧
    ∀ bid, bid = 0 ∨ N ≤ bid → w'.disk bid = w.disk bid

namespace Confined

variable {w w₁ w₂ : World}

/-- Nothing on the device has changed. -/
theorem of_disk (hnblk : w₁.nblk = w.nblk) (hsb : w₁.sb = w.sb) (hdisk : w₁.disk = w.disk) :
    Confined N w w₁ := by
  intro h
  rw [hnblk, hsb, hdisk]
  exact ⟨h, rfl, fun _ _ => rfl⟩

theorem setBlock (w : World) {bid : ℕ} (b : Block) (hpos : 0 < bid) (hlt : bid < N) :
    Confined N w (w.setBlock bid b) := by
  intro h
  refine ⟨h, rfl, fun m hm => ?_⟩
  exact World.disk_setBlock_of_ne _ _ _ (by omega)

theorem trans (h : Confined N w w₁) (h' : Confined N w₁ w₂) : Confined N w w₂ := by
  intro hN
  obtain ⟨hN₁, hsb, hdisk⟩ := h hN
  obtain ⟨hN₂, hsb', hdisk'⟩ := h' hN₁
  exact ⟨hN₂, hsb'.trans hsb, fun bid hbid => (hdisk' bid hbid).trans (hdisk bid hbid)⟩

end Confined

instance : IsPreorder World (Confined N) where
  refl _ := .of_disk rfl rfl rfl
  trans _ _ _ := Confined.trans

/-- A program all of whose outcomes are confined. -/
abbrev Confines (N : ℕ) (x : Driver α) : Prop := Within (Confined N) (fun _ => True) x

/-! ### The kernel functions -/

section Kernel

theorem confined_bData (bid : ℕ) : Confines N (bData bid) := .bind .get fun _ => .pure _

theorem confined_current_time : Confines N current_time := .bind .get fun _ => .pure _

theorem confined_assert (c : Bool) : Confines N (assert c) := .ite (.pure _) (.throw trivial)

theorem confined_modifyBuf {bid : ℕ} (f : Block → Block) (hpos : 0 < bid) (hlt : bid < N) :
    Confines N (modifyBuf bid f) := by
  intro w
  exact .setBlock w _ hpos hlt

theorem confined_modifyInode (ino : ℕ) (f : Inode → Inode) : Confines N (modifyInode ino f) :=
  .modify fun _ => .of_disk rfl rfl rfl

theorem confined_mark_inode_dirty (ino : ℕ) : Confines N (mark_inode_dirty ino) :=
  .modify fun _ => .of_disk rfl rfl rfl

theorem confined_getInode (ino : ℕ) : Confines N (getInode ino) := by
  refine .bind .get fun w => ?_
  cases w.inode? ino with
  | none => exact .throw trivial
  | some i => exact .pure i

theorem confined_iblock (i : Inode) (k : ℕ) : Confines N (iblock i k) := by
  unfold iblock
  split
  · exact .pure _
  · exact .throw trivial

theorem confined_setIblock (ino k : ℕ) (dno : UInt32) : Confines N (setIblock ino k dno) := by
  unfold setIblock
  split
  · exact confined_modifyInode _ _
  · exact .throw trivial

theorem confined_iget_locked (ino : ℕ) : Confines N (iget_locked ino) := by
  refine .bind .get fun w => ?_
  cases w.icache ino with
  | none =>
      refine .bind (.bind .get fun _ => .pure _) fun granted => .ite ?_ (.pure _)
      exact .bind (.modify fun _ => .of_disk rfl rfl rfl) fun _ => .pure _
  | some c => exact .ite (.throw trivial) (.pure _)

/-- A block that can be read is on the device. -/
theorem confined_bread {site : Site} {bid : ℕ} {f : Bool → Driver α}
    (h : ∀ b, (b = true → bid < N) → Confines N (f b)) : Confines N (sb_bread site bid >>= f) := by
  intro w
  rw [wp_bind, wp_sb_bread]
  by_cases hN : w.nblk = N
  · refine h _ (fun hread => ?_) w
    rw [World.readable, Bool.and_eq_true] at hread
    rw [← hN]
    exact of_decide_eq_true hread.2
  · refine wp_mono (wp_self _ w) ?_ ?_
    · intro _ w' _ h
      exact absurd h hN
    · intro _ _
      trivial

/-- What follows a read may write the block. -/
theorem confined_if_bread {site : Site} {bid : ℕ} {x y : Driver α} (hx : bid < N → Confines N x)
    (hy : Confines N y) : Confines N (do if ← sb_bread site bid then x else y) := by
  refine confined_bread fun b hb => ?_
  split
  · exact hx (hb ‹_›)
  · exact hy

theorem confined_assert_bread {site : Site} {bid : ℕ} {x : Driver α}
    (hx : bid < N → Confines N x) :
    Confines N (do
      let bh ← sb_bread site bid
      assert bh
      x) := by
  refine confined_bread fun b hb => ?_
  cases b with
  | false =>
      intro w
      rw [wp_bind, wp_assert]
      exact ⟨fun h => absurd h Bool.false_ne_true, fun _ => trivial⟩
  | true => exact hx (hb rfl)

end Kernel

/-! ### The functions of the driver -/

section Driver

theorem confined_getFreeIdx {min : ℕ} {noRead full : UInt32} (rem : ℕ) {bid : ℕ} (hpos : 0 < bid) :
    Confines N (getFreeIdx min noRead full rem bid) := by
  induction rem generalizing bid with
  | zero => exact .pure _
  | succ rem ih =>
      refine confined_if_bread (fun hlt => ?_) (.pure _)
      refine .bind (confined_bData _) fun b => .bind (confined_modifyBuf _ hpos hlt) fun _ => ?_
      exact .ite (.pure _) (ih (Nat.succ_pos bid))

theorem confined_putIdx {bid idx : ℕ} (hpos : 0 < bid) : Confines N (putIdx bid idx) := by
  refine confined_assert_bread fun hlt => ?_
  exact .bind (confined_bData _) fun _ => .bind (confined_modifyBuf _ hpos hlt) fun _ =>
    confined_assert _

theorem confined_yaf_get_free_inode : Confines N yaf_get_free_inode := by
  refine .bind .get fun w => confined_getFreeIdx _ ?_
  rw [BID_IBP_MIN_eq]
  exact Nat.one_pos

theorem confined_yaf_get_free_dblock : Confines N yaf_get_free_dblock := by
  refine .bind .get fun w => confined_getFreeIdx _ ?_
  rw [BID_DBP_MIN_eq]
  omega

theorem confined_yaf_put_inode (ino : ℕ) : Confines N (yaf_put_inode ino) := by
  refine .bind .get fun w => confined_putIdx ?_
  rw [IDXI2BID_eq]
  omega

theorem confined_yaf_put_dblock (dno : UInt32) : Confines N (yaf_put_dblock dno) := by
  refine .bind .get fun w => confined_putIdx ?_
  rw [IDXD2BID_eq]
  omega

theorem confined_yaf_iget (ino : ℕ) : Confines N (yaf_iget ino) := by
  refine .bind .get fun w => .ite (.pure _) (.bind (confined_iget_locked _) fun b => ?_)
  refine .ite (confined_if_bread (fun _ => ?_) (.pure _)) (.pure _)
  refine .bind (confined_bData _) fun b => .bind (confined_modifyInode _ _) fun _ => ?_
  exact .bind (.modify fun _ => .of_disk rfl rfl rfl) fun _ => .pure _

/-- The slot of an inode lies behind the superblock, whatever its number. -/
theorem INO2BID_pos (sb : Yaf_Sb_Info) (ino : ℕ) : 0 < INO2BID sb ino := by
  rw [INO2BID_eq]
  omega

/-- So does a data block. -/
theorem DNO2BID_pos (sb : Yaf_Sb_Info) (dno : ℕ) : 0 < DNO2BID sb dno := by
  rw [DNO2BID_eq]
  omega

theorem confined_yaf_write_inode (ino : ℕ) : Confines N (yaf_write_inode ino) := by
  refine .bind .get fun w => .bind (confined_getInode _) fun i => ?_
  refine confined_if_bread (fun hlt => ?_) (.pure _)
  exact .bind (confined_modifyBuf _ (INO2BID_pos _ _) hlt) fun _ => .pure _

theorem confined_initInode (dir ino : ℕ) (mode : UInt16) :
    Confines N (initInode dir ino mode) := by
  refine .bind .get fun w => .bind (confined_getInode _) fun d => ?_
  refine .bind (confined_modifyInode _ _) fun _ => .bind (confined_modifyInode _ _) fun _ => ?_
  refine .bind confined_current_time fun _ => .bind (confined_modifyInode _ _) fun _ => ?_
  exact .bind (confined_modifyInode _ _) fun _ => confined_mark_inode_dirty _

theorem confined_yaf_new_inode (dir : ℕ) (mode : UInt16) :
    Confines N (yaf_new_inode dir mode) := by
  refine .bind confined_yaf_get_free_inode fun ino => .ite (.pure _) ?_
  refine .bind (confined_yaf_iget _) fun ret => .ite ?_ ?_
  · exact .bind (confined_yaf_put_inode _) fun _ => .pure _
  · exact .bind (confined_initInode _ _ _) fun _ => .pure _

theorem confined_scanDir (hit : Block → ℕ → Bool) (dir : Inode) (rem doff : ℕ) :
    Confines N (scanDir hit dir rem doff) := by
  induction rem generalizing doff with
  | zero => exact .ite (.throw trivial) (.pure _)
  | succ rem ih =>
      refine .ite (.bind .get fun w => .bind (confined_iblock _ _) fun dno => ?_) (.pure _)
      refine confined_if_bread (fun _ => .bind (confined_bData _) fun b => ?_) (.pure _)
      split
      · exact .pure _
      · exact ih _

theorem confined_attachDentryBlock (dir doff : ℕ) : Confines N (attachDentryBlock dir doff) := by
  refine .bind confined_yaf_get_free_dblock fun dno => .ite (.pure _) ?_
  refine .bind (confined_getInode _) fun i => .bind (confined_iblock _ _) fun old => ?_
  exact .bind (confined_assert _) fun _ => .bind (confined_setIblock _ _ _) fun _ => .pure _

theorem confined_appendDentry (dir doff : ℕ) : Confines N (appendDentry dir doff) := by
  refine .bind .get fun w => .bind (confined_getInode _) fun i => ?_
  refine .bind (confined_iblock _ _) fun dno => confined_assert_bread fun hlt => ?_
  refine .bind (confined_modifyBuf _ (DNO2BID_pos _ _) hlt) fun _ => ?_
  refine .bind (confined_modifyInode _ _) fun _ => .bind confined_current_time fun _ => ?_
  exact .bind (confined_modifyInode _ _) fun _ => .bind (confined_mark_inode_dirty _) fun _ =>
    .pure _

theorem confined_yaf_get_free_dentry (dir : ℕ) : Confines N (yaf_get_free_dentry dir) := by
  refine .bind (confined_getInode _) fun di => .bind (confined_scanDir _ _ _ _) fun r => ?_
  cases r with
  | noRead => exact .pure _
  | found doff => exact .pure _
  | done doff =>
      refine .ite (.pure _) (.ite ?_ (confined_appendDentry _ _))
      exact .bind (confined_attachDentryBlock _ _) fun _ =>
        .ite (confined_appendDentry _ _) (.pure _)

theorem confined_lookup (dir : ℕ) (q : Qstr) : Confines N (_yaf_lookup dir q) := by
  refine .ite (.pure _) (.bind (confined_getInode _) fun di => ?_)
  refine .bind (confined_scanDir _ _ _ _) fun r => ?_
  cases r with
  | noRead => exact .pure _
  | found doff => exact .pure _
  | done doff => exact .pure _

theorem confined_linkDentry (dir : ℕ) (q : Qstr) (mode : UInt16) (doff : ℕ) :
    Confines N (linkDentry dir q mode doff) := by
  refine .bind .get fun w => .bind (confined_getInode _) fun i => ?_
  refine .bind (confined_iblock _ _) fun dno => confined_if_bread (fun hlt => ?_) (.pure _)
  refine .bind (confined_yaf_new_inode _ _) fun r => ?_
  cases r with
  | error e => exact .pure _
  | ok n =>
      refine .bind (confined_modifyBuf _ (DNO2BID_pos _ _) hlt) fun _ => ?_
      refine .bind confined_current_time fun _ => .bind (confined_modifyInode _ _) fun _ => ?_
      exact .bind (confined_modifyInode _ _) fun _ => .bind (confined_mark_inode_dirty _) fun _ =>
        .pure _

theorem confined_create (dir : ℕ) (q : Qstr) (mode : UInt16) :
    Confines N (_yaf_create dir q mode) :=
  .ite (.pure _) (.bind (confined_yaf_get_free_dentry _) fun _ => confined_linkDentry _ _ _ _)

theorem confined_lookupOut (dir : ℕ) : Confines N (lookupOut dir) :=
  .bind confined_current_time fun _ => .bind (confined_modifyInode _ _) fun _ =>
    .bind (confined_mark_inode_dirty _) fun _ => .pure _

theorem confined_yaf_lookup (dir : ℕ) (q : Qstr) : Confines N (yaf_lookup dir q) := by
  refine .bind (confined_lookup _ _) fun doff => .ite ?_ ?_
  · exact .ite (confined_lookupOut dir) (.pure _)
  refine .bind .get fun w => .bind (confined_getInode _) fun i => ?_
  refine .bind (confined_iblock _ _) fun dno => confined_if_bread (fun _ => ?_) (.pure _)
  refine .bind (confined_bData _) fun b => .bind (confined_yaf_iget _) fun ret => ?_
  exact .ite (.pure _) (confined_lookupOut dir)

theorem confined_putBlocks (inode : Inode) (rem k : ℕ) : Confines N (putBlocks inode rem k) := by
  induction rem generalizing k with
  | zero => exact .ite (.throw trivial) (.pure _)
  | succ rem ih =>
      refine .ite (.bind (confined_iblock _ _) fun dno => ?_) (.pure _)
      exact .bind (confined_yaf_put_dblock _) fun _ => ih _

theorem confined_unlinkDentry (dir ino doff : ℕ) : Confines N (unlinkDentry dir ino doff) := by
  refine .bind .get fun w => .bind (confined_getInode _) fun i => ?_
  refine .bind (confined_iblock _ _) fun dno => confined_if_bread (fun hlt => ?_) (.pure _)
  refine .bind (confined_modifyBuf _ (DNO2BID_pos _ _) hlt) fun _ => ?_
  refine .bind confined_current_time fun _ => .bind (confined_modifyInode _ _) fun _ => ?_
  refine .bind (confined_modifyInode _ _) fun _ => .bind (confined_mark_inode_dirty _) fun _ => ?_
  refine .bind (confined_modifyInode _ _) fun _ => .bind (confined_getInode _) fun inode => ?_
  refine .ite (.bind (confined_mark_inode_dirty _) fun _ => .pure _) ?_
  exact .bind (confined_putBlocks _ _ _) fun _ => .bind (confined_yaf_put_inode _) fun _ =>
    .bind (confined_mark_inode_dirty _) fun _ => .pure _

theorem confined_yaf_delete (dir : ℕ) (q : Qstr) (ino : ℕ) : Confines N (yaf_delete dir q ino) :=
  .bind (confined_lookup _ _) fun _ => .bind (confined_assert _) fun _ =>
    confined_unlinkDentry _ _ _

theorem confined_allocBlocks (ino rem dbnr : ℕ) : Confines N (allocBlocks ino rem dbnr) := by
  induction rem generalizing dbnr with
  | zero => exact .pure _
  | succ rem ih =>
      refine .bind confined_yaf_get_free_dblock fun dno => .ite ?_ ?_
      · exact .bind (confined_mark_inode_dirty _) fun _ => .pure _
      · exact .bind (confined_setIblock _ _ _) fun _ => ih _

theorem confined_yaf_get_block (ino iblk : ℕ) (create : Bool) :
    Confines N (yaf_get_block ino iblk create) := by
  have hmap : ∀ sb : Yaf_Sb_Info, Confines N (do
      pure ((0 : ℤ), some (DNO2BID sb (← iblock (← getInode ino) iblk).toNat))) :=
    fun _ => .bind (confined_getInode _) fun _ => .bind (confined_iblock _ _) fun _ => .pure _
  refine .bind .get fun w => .ite (.pure _) (.bind (confined_getInode _) fun i => ?_)
  refine .ite (.ite (.bind (confined_allocBlocks _ _ _) fun ok => .ite ?_ (.pure _)) (.pure _))
    (hmap _)
  exact .bind (confined_mark_inode_dirty _) fun _ => hmap _

/-- Nothing is said of what a program does. -/
theorem wp_trivial (x : Driver α) (w : World) : wp x (fun _ _ => True) (fun _ => True) w :=
  wp_mono (wp_self x w) (fun _ _ _ => trivial) fun _ _ => trivial

/-- The block a piece of a file is mapped to lies behind the superblock. -/
theorem pos_of_yaf_get_block (ino iblk : ℕ) (create : Bool) (w : World) :
    wp (yaf_get_block ino iblk create) (fun r _ => ∀ bid, r.2 = some bid → 0 < bid)
      (fun _ => True) w := by
  have hnone : ∀ (ret : ℤ) bid, (ret, (none : Option ℕ)).2 = some bid → 0 < bid := by
    intro ret bid h
    simp at h
  have hmap : ∀ (sb : Yaf_Sb_Info) (w : World), wp (do
      pure ((0 : ℤ), some (DNO2BID sb (← iblock (← getInode ino) iblk).toNat)))
      (fun r _ => ∀ bid, r.2 = some bid → 0 < bid) (fun _ => True) w := by
    intro sb w
    rw [wp_bind]
    refine wp_mono (wp_trivial _ w) (fun i w₁ _ => ?_) fun _ h => h
    rw [wp_bind]
    refine wp_mono (wp_trivial _ w₁) (fun dno w₂ _ => ?_) fun _ h => h
    rw [wp_pure]
    intro bid hbid
    rw [← Option.some_inj.1 hbid]
    exact DNO2BID_pos _ _
  rw [yaf_get_block, wp_bind, wp_get, wp_ite]
  refine ⟨fun _ => hnone _, fun _ => ?_⟩
  rw [wp_bind]
  refine wp_mono (wp_trivial _ w) (fun i w₁ _ => ?_) fun _ h => h
  rw [wp_ite]
  refine ⟨fun _ => ?_, fun _ => hmap _ _⟩
  rw [wp_ite]
  refine ⟨fun _ => ?_, fun _ => hnone _⟩
  rw [wp_bind]
  refine wp_mono (wp_trivial _ w₁) (fun ok w₂ _ => ?_) fun _ h => h
  rw [wp_ite]
  refine ⟨fun _ => ?_, fun _ => hnone _⟩
  rw [wp_bind, wp_mark_inode_dirty]
  exact hmap _ _

/-- The block a write goes to can be read, and lies behind the superblock. -/
theorem confined_yaf_write_begin (ino pos len : ℕ) (w : World) :
    wp (yaf_write_begin ino pos len) (fun r w' => Confined N w w' ∧
      ∀ bid, r = .ok bid → 0 < bid ∧ (w.nblk = N → bid < N)) (fun _ => True) w := by
  rw [yaf_write_begin, wp_ite]
  refine ⟨fun _ => ⟨refl_of (Confined N) w, fun bid h => by simp at h⟩, fun _ => ?_⟩
  rw [block_write_begin, wp_bind]
  refine wp_mono (wp_and (confined_yaf_get_block (N := N) ino _ true w)
    (pos_of_yaf_get_block ino _ true w)) ?_ fun _ h => h.1
  rintro ⟨ret, o⟩ w₁ ⟨hconf, hpos⟩
  cases o with
  | none => exact ⟨hconf, fun bid h => by simp at h⟩
  | some bid =>
      dsimp only
      rw [wp_ite]
      refine ⟨fun _ => ⟨hconf, fun bid h => by simp at h⟩, fun _ => ?_⟩
      rw [wp_bind, wp_sb_bread, wp_ite]
      refine ⟨fun hread => ⟨hconf, fun b hb => ?_⟩, fun _ => ⟨hconf, fun bid h => by simp at h⟩⟩
      obtain rfl : bid = b := by simpa using hb
      refine ⟨hpos bid rfl, fun hN => ?_⟩
      rw [World.readable, Bool.and_eq_true] at hread
      rw [← (hconf hN).1]
      exact of_decide_eq_true hread.2

theorem confined_yaf_write_end {ino pos copied bid : ℕ} (data : List UInt8) (hpos : 0 < bid)
    (hlt : bid < N) : Confines N (yaf_write_end ino pos data copied bid) := by
  refine .bind (.bind (confined_modifyBuf _ hpos hlt) fun _ => .bind (confined_getInode _)
    fun i => ?_) fun ret => .ite (.pure _) ?_
  · refine .ite ?_ (.pure _)
    exact .bind (confined_modifyInode _ _) fun _ => .bind (confined_mark_inode_dirty _) fun _ =>
      .pure _
  · exact .bind confined_current_time fun _ => .bind (confined_modifyInode _ _) fun _ =>
      .bind (confined_modifyInode _ _) fun _ => .bind (confined_mark_inode_dirty _) fun _ =>
        .pure _

theorem confined_vfs_write (ino pos : ℕ) (data : List UInt8) (copied : ℕ) :
    Confines N (vfs_write ino pos data copied) := by
  intro w
  rw [vfs_write, wp_bind]
  refine wp_mono (confined_yaf_write_begin (N := N) ino pos data.length w) ?_ fun _ h => h
  rintro r w₁ ⟨hconf, hbid⟩
  cases r with
  | error e => exact hconf
  | ok bid =>
      obtain ⟨hpos, hlt⟩ := hbid bid rfl
      by_cases hN : w.nblk = N
      · refine wp_mono (confined_yaf_write_end data hpos (hlt hN) w₁) (fun _ w₂ h => ?_) fun _ h => h
        exact hconf.trans h
      · refine wp_mono (wp_trivial _ w₁) (fun _ w₂ _ h => ?_) fun _ h => h
        exact absurd h hN

end Driver

/-! ### Operations -/

theorem confined_iput (ino : ℕ) : Confines N (iput ino) := by
  refine .modify fun w => ?_
  cases w.inode? ino with
  | none => exact refl_of (Confined N) w
  | some i =>
      dsimp only
      split
      · exact .of_disk rfl rfl rfl
      · exact refl_of (Confined N) w

theorem confined_remove {op : Driver ℤ} (h : Confines N op) (ino : ℕ) :
    Confines N (remove op ino) :=
  .bind h fun _ => .ite (.bind (confined_iput _) fun _ => .pure _) (.pure _)

/-- **Every operation is confined**, whatever the VFS has checked and the device refuses. -/
theorem confined_step (op : Op) : Confines N (step op) := by
  have hquiet : ∀ {f : World → World}, (∀ w, Confined N w (f w)) →
      Confines N (do modify f; pure ((0 : ℤ), (none : Option ℕ))) :=
    fun h => .bind (.modify h) fun _ => .pure _
  cases op with
  | lookup dir q => exact .bind (confined_yaf_lookup dir q) fun _ => .pure _
  | create dir q mode => exact confined_create dir q (mode ||| S_IFREG)
  | mkdir dir q mode => exact confined_create dir q (mode ||| S_IFDIR)
  | unlink dir q ino =>
      exact .bind (confined_remove (confined_yaf_delete dir q ino) ino) fun _ => .pure _
  | rmdir dir q ino =>
      have hrmdir : Confines N (yaf_rmdir dir q ino) :=
        .bind (confined_getInode _) fun _ => .ite (.pure _) (confined_yaf_delete _ _ _)
      exact .bind (confined_remove hrmdir ino) fun _ => .pure _
  | write ino pos data copied =>
      exact .bind (confined_vfs_write ino pos data copied) fun _ => .pure _
  | setSize ino size =>
      refine .bind (.bind (confined_modifyInode _ _) fun _ => ?_) fun _ => .pure _
      exact .bind (confined_mark_inode_dirty _) fun _ => .pure _
  | openFile ino => exact hquiet fun _ => .of_disk rfl rfl rfl
  | closeFile ino =>
      refine .bind (.modify fun _ => .of_disk rfl rfl rfl) fun _ => ?_
      exact .bind (confined_iput ino) fun _ => .pure _
  | writeInode ino =>
      refine .bind (.bind (.modify fun _ => .of_disk rfl rfl rfl) fun _ => ?_) fun _ => .pure _
      exact confined_yaf_write_inode ino
  | evict ino => exact hquiet fun _ => .of_disk rfl rfl rfl
  | tick now fsuid fsgid => exact hquiet fun _ => .of_disk rfl rfl rfl
  | device io => exact hquiet fun _ => .of_disk rfl rfl rfl

section Runs

variable {ok : World → Op → Prop} {w w' : World} {l : List (Op × Reply)}

/-- **The driver never writes the superblock, and nothing behind the end of the device**: in no
run, from whatever the device and the memory hold, and whichever reads fail. -/
theorem confined_of_run (hrun : Run step ok w l w') : w'.nblk = w.nblk ∧ w'.sb = w.sb ∧
    ∀ bid, bid = 0 ∨ w.nblk ≤ bid → w'.disk bid = w.disk bid := by
  have hconf : Confined w.nblk w w' := by
    refine hrun.invariant (refl_of (Confined w.nblk) w) fun s op r s' hs _ hr => ?_
    exact hs.trans ((confined_step op s).ok hr)
  exact hconf rfl

/-- A mount whose device was overwritten, and does not read inodes. -/
def Volume.damaged : World := { Volume.small.mounted with
  disk := fun _ _ => 128
  io := unreadable 3 }

/-- A directory that leads nowhere, a write and a creation that fails, all on a damaged volume. -/
theorem confined_damaged : ∃ l w', Run step (fun _ _ => True) Volume.damaged l w' ∧
    l.map Prod.snd = [(0, none), (- EIO, none), (1, none), (-ENOSPC, none), (- EIO, none)] ∧
    w'.nblk = Volume.damaged.nblk ∧ w'.sb = Volume.damaged.sb ∧
    ∀ bid, bid = 0 ∨ Volume.damaged.nblk ≤ bid → w'.disk bid = Volume.damaged.disk bid := by
  have hexec : ((exec step (fun _ _ => True) Volume.damaged
      [.setSize 1 32, .lookup 1 (.letters 0), .write 1 0 [7] 1, .create 1 (.letters 0) 0,
        .writeInode 1]).any fun x => decide (x.1.map Prod.snd =
          [(0, none), (- EIO, none), (1, none), (-ENOSPC, none), (- EIO, none)])) = true := by
    decide +kernel
  obtain ⟨l, w', hrun, hp⟩ := exists_run_of_exec
    (p := fun l _ => decide (l.map Prod.snd =
      [(0, none), (- EIO, none), (1, none), (-ENOSPC, none), (- EIO, none)])) hexec
  exact ⟨l, w', hrun, of_decide_eq_true hp, confined_of_run hrun⟩

end Runs

/-! ### With a page cache -/

namespace Paged

/-- No page is mapped to the superblock. -/
def Mapped (c : Paged) : Prop := ∀ n k p bid, c.pages n k = some p → p.bh = some bid → 0 < bid

/-- A program whose outcomes are confined, that maps no page to the superblock, and that returns a
value with `Q`. -/
def Confines (N : ℕ) (Q : α → Prop) (x : Pager α) : Prop := ∀ c : Paged, c.Mapped →
  wp x (fun a c' => c'.Mapped ∧ Confined N c.world c'.world ∧ Q a) (fun _ => True) c

namespace Confines

variable {β : Type} {Q : α → Prop} {Q' : β → Prop} {x : Pager α}

theorem pure {a : α} (h : Q a) : Confines N Q (pure a) :=
  fun c hc => ⟨hc, refl_of (Confined N) c.world, h⟩

theorem throw (e : Oops) : Confines N Q (throw e) := fun _ _ => trivial

theorem get : Confines N Mapped get := fun c hc => ⟨hc, refl_of (Confined N) c.world, hc⟩

theorem bind {z : Pager β} {f : β → Pager α} (hz : Confines N Q' z)
    (hf : ∀ b, Q' b → Confines N Q (f b)) : Confines N Q (z >>= f) := by
  intro c hc
  rw [wp_bind]
  refine wp_mono (hz c hc) ?_ fun _ h => h
  rintro b c₁ ⟨hc₁, hconf, hb⟩
  refine wp_mono (hf b hb c₁ hc₁) ?_ fun _ h => h
  rintro a c₂ ⟨hc₂, hconf', ha⟩
  exact ⟨hc₂, hconf.trans hconf', ha⟩

theorem ite {p : Prop} [Decidable p] {y : Pager α} (hx : p → Confines N Q x)
    (hy : ¬p → Confines N Q y) : Confines N Q (if p then x else y) := by
  split
  · exact hx ‹_›
  · exact hy ‹_›

/-- A program of the driver. -/
theorem onWorld {x : Driver α} (h : ∀ w, wp x (fun a w' => Confined N w w' ∧ Q a)
    (fun _ => True) w) : Confines N Q (onWorld x) := by
  intro c hc
  rw [Yaf.onWorld, wp_zoom]
  refine wp_mono (h c.world) ?_ fun _ h => h
  rintro a w ⟨hconf, ha⟩
  exact ⟨hc, hconf, ha⟩

theorem plain {x : Driver α} (h : Yaf.Confines N x) :
    Confines N (fun _ => True) (Yaf.onWorld x) :=
  .onWorld fun w => wp_mono (h w) (fun _ _ h => ⟨h, trivial⟩) fun _ h => h

end Confines

/-- The page that is found or added is not mapped to the superblock. -/
theorem Mapped.grab {c : Paged} (h : c.Mapped) (ino idx : ℕ) :
    ∀ bid, (c.grab ino idx).bh = some bid → 0 < bid := by
  intro bid hbid
  unfold Paged.grab at hbid
  cases hp : c.pages ino idx with
  | none =>
      rw [hp] at hbid
      simp [Page.blank] at hbid
  | some p =>
      rw [hp] at hbid
      exact h ino idx p bid hp hbid

theorem confines_putPage (ino idx : ℕ) {p : Page} (hp : ∀ bid, p.bh = some bid → 0 < bid) :
    Confines N (fun _ => True) (putPage ino idx p) := by
  intro c hc
  refine ⟨fun n k q bid hq hbid => ?_, refl_of (Confined N) c.world, trivial⟩
  have hpages : (if n = ino ∧ k = idx then some p else c.pages n k) = some q := hq
  split at hpages
  · rw [← Option.some_inj.1 hpages] at hbid
    exact hp bid hbid
  · exact hc n k q bid hpages hbid

/-- A page without a block. -/
theorem confines_blank (ino idx : ℕ) {p : Page} (hp : p.bh = none) :
    Confines N (fun _ => True) (putPage ino idx p) :=
  confines_putPage ino idx fun bid hbid => by simp [hp] at hbid

theorem confines_getInode (ino : ℕ) : Confines N (fun _ => True) (onWorld (getInode ino)) :=
  .plain (confined_getInode ino)

theorem confines_yaf_get_block (ino idx : ℕ) (create : Bool) :
    Confines N (fun r => ∀ bid, r.2 = some bid → 0 < bid)
      (onWorld (yaf_get_block ino idx create)) :=
  .onWorld fun w => wp_mono (wp_and (confined_yaf_get_block ino idx create w)
    (pos_of_yaf_get_block ino idx create w)) (fun _ _ h => h) fun _ h => h.1

theorem confines_yaf_readahead (ino idx : ℕ) :
    Confines N (fun _ => True) (yaf_readahead ino idx) := by
  refine .bind .get fun c _ => .ite (fun _ => ?_) fun _ => .pure trivial
  refine .bind (confines_getInode ino) fun i _ => .ite (fun _ => ?_) fun _ => .pure trivial
  refine .bind (confines_yaf_get_block ino idx false) fun r _ => ?_
  obtain ⟨ret, o⟩ := r
  cases o with
  | none => exact .ite (fun _ => confines_blank ino idx rfl) fun _ => confines_blank ino idx rfl
  | some bid =>
      refine .ite (fun _ => confines_blank ino idx rfl) fun _ => ?_
      refine .bind (.plain (.bind .get fun _ => .pure _)) fun b _ => .ite (fun _ => ?_) fun _ =>
        confines_blank ino idx rfl
      exact .bind (.plain (confined_bData bid)) fun _ _ => confines_blank ino idx rfl

theorem confines_vfs_read (ino off : ℕ) : Confines N (fun _ => True) (vfs_read ino off) := by
  refine .bind (confines_getInode ino) fun i _ => .ite (fun _ => ?_) fun _ => .pure trivial
  refine .bind (confines_yaf_readahead ino _) fun _ _ => .bind .get fun c _ => ?_
  cases c.pages ino (off / YAF_BLOCK_SIZE) with
  | none => exact .throw _
  | some p => exact .ite (fun _ => .pure trivial) fun _ => .throw _

theorem confines_get_block (ino idx : ℕ) {p : Page} (hp : ∀ bid, p.bh = some bid → 0 < bid) :
    Confines N (fun r => ∀ bid, r.2 = some bid → 0 < bid) (get_block ino idx p) := by
  unfold get_block
  split
  · rename_i bid hbid
    refine .pure fun b hb => ?_
    rw [← Option.some_inj.1 hb]
    exact hp bid hbid
  · exact confines_yaf_get_block ino idx true

theorem confines_block_write_begin (ino pos len : ℕ) :
    Confines N (fun _ => True) (block_write_begin ino pos len) := by
  refine .bind .get fun c hc => ?_
  have hp := hc.grab ino (pos / YAF_BLOCK_SIZE)
  refine .bind (confines_get_block ino _ hp) fun r hr => ?_
  obtain ⟨ret, o⟩ := r
  cases o with
  | none => exact .bind (confines_putPage ino _ hp) fun _ _ => .pure trivial
  | some bid =>
      have hput : ∀ q : Page, q.bh = some bid →
          Confines N (fun _ => True) (putPage ino (pos / YAF_BLOCK_SIZE) q) := by
        intro q hq
        refine confines_putPage ino _ fun b hb => ?_
        rw [hq] at hb
        exact hr b hb
      refine .ite (fun _ => .bind (hput _ rfl) fun _ _ => .pure trivial) fun _ => ?_
      refine .ite (fun _ => .bind (hput _ rfl) fun _ _ => .pure trivial) fun _ => ?_
      refine .bind (.plain (.bind .get fun _ => .pure _)) fun b _ => .ite (fun _ => ?_) fun _ => ?_
      · exact .bind (.plain (confined_bData bid)) fun _ _ => .bind (hput _ rfl) fun _ _ =>
          .pure trivial
      · exact .bind (hput _ rfl) fun _ _ => .pure trivial

theorem confines_yaf_write_begin (ino pos len : ℕ) :
    Confines N (fun _ => True) (yaf_write_begin ino pos len) :=
  .ite (fun _ => .pure trivial) fun _ => confines_block_write_begin ino pos len

theorem confines_yaf_write_end (ino pos len copied : ℕ) :
    Confines N (fun _ => True) (yaf_write_end ino pos len copied) := by
  have hblock : Confines N (fun _ => True) (block_write_end ino pos len copied) := by
    refine .bind .get fun c hc => ?_
    have hp := hc.grab ino (pos / YAF_BLOCK_SIZE)
    exact .ite (fun _ => .bind (confines_putPage ino _ hp) fun _ _ => .pure trivial) fun _ =>
      .bind (confines_putPage ino _ hp) fun _ _ => .pure trivial
  have hgeneric : Confines N (fun _ => True) (generic_write_end ino pos len copied) := by
    refine .bind hblock fun n _ => .bind (confines_getInode ino) fun i _ => ?_
    refine .ite (fun _ => ?_) fun _ => .pure trivial
    exact .bind (.plain (confined_modifyInode _ _)) fun _ _ =>
      .bind (.plain (confined_mark_inode_dirty _)) fun _ _ => .pure trivial
  refine .bind hgeneric fun ret _ => .ite (fun _ => .pure trivial) fun _ => ?_
  refine .bind (.plain confined_current_time) fun _ _ => ?_
  refine .bind (.plain (confined_modifyInode _ _)) fun _ _ => ?_
  refine .bind (.plain (confined_modifyInode _ _)) fun _ _ => ?_
  exact .bind (.plain (confined_mark_inode_dirty _)) fun _ _ => .pure trivial

theorem confines_vfs_write (ino pos : ℕ) (data : List UInt8) (copied : ℕ) :
    Confines N (fun _ => True) (vfs_write ino pos data copied) := by
  have hround : ∀ data : List UInt8,
      Confines N (fun _ => True) (write_round ino pos data copied) := by
    intro data
    have hcopy : Confines N (fun _ => True) (copy_page_from_iter ino pos (data.take copied)) :=
      .bind .get fun c hc => confines_putPage ino _ (hc.grab ino _)
    refine .bind (confines_yaf_write_begin ino pos _) fun ret _ => .ite (fun _ => .pure trivial)
      fun _ => ?_
    exact .bind hcopy fun _ _ => confines_yaf_write_end ino pos _ copied
  exact .bind (hround data) fun status _ => .ite (fun _ => hround _) fun _ => .pure trivial

/-- A page is written to the block it is mapped to, which is on the device. -/
theorem confines_block_write_full_folio (ino idx : ℕ) {p : Page} (bytes : List UInt8)
    (hp : ∀ bid, p.bh = some bid → 0 < bid) :
    Confines N (fun _ => True) (block_write_full_folio ino idx p bytes) := by
  refine .bind (confines_get_block ino idx hp) fun r hr => ?_
  obtain ⟨ret, o⟩ := r
  cases o with
  | none => exact .pure trivial
  | some bid =>
      have hput : ∀ q : Page, q.bh = some bid →
          Confines N (fun _ => True) (putPage ino idx q) := by
        intro q hq
        refine confines_putPage ino _ fun b hb => ?_
        rw [hq] at hb
        exact hr b hb
      intro c hc
      dsimp only
      rw [wp_bind, wp_get, wp_ite]
      refine ⟨fun hlt => ?_, fun _ => (Confines.bind (hput _ rfl) fun _ _ => .pure trivial) c hc⟩
      rw [wp_bind, onWorld, wp_zoom, wp_modifyBuf]
      have hlater := Confines.bind (hput ⟨fun x => bytes.getD x 0, p.uptodate, some bid, p.read,
        false⟩ rfl) (fun _ _ => Confines.pure (a := (0 : ℤ)) (Q := fun _ => True) trivial)
      refine wp_mono (hlater { c with world := c.world.setBlock bid _ } hc) ?_ fun _ h => h
      rintro _ c₂ ⟨hc₂, hconf, -⟩
      refine ⟨hc₂, fun hN => ?_, trivial⟩
      exact (Confined.setBlock c.world _ (hr bid rfl) (hN ▸ hlt)).trans hconf hN

theorem confines_yaf_writepage (ino idx : ℕ) :
    Confines N (fun _ => True) (yaf_writepage ino idx) := by
  refine .bind (confines_getInode ino) fun i _ => .bind .get fun c hc => ?_
  have hp := hc.grab ino idx
  refine .ite (fun _ => confines_block_write_full_folio ino idx _ hp) fun _ => ?_
  exact .ite (fun _ => .pure trivial) fun _ => confines_block_write_full_folio ino idx _ hp

/-- **Every event is confined.** -/
theorem confines_step (e : Event) : Confines N (fun _ => True) (step e) := by
  cases e with
  | call op =>
      have htruncate : Confines N (fun _ => True) (modify truncate) := by
        intro c hc
        refine ⟨fun n k p bid hp hbid => ?_, refl_of (Confined N) c.world, trivial⟩
        have hpages : (if (c.world.icache n).isSome then c.pages n k else none) = some p := hp
        split at hpages
        · exact hc n k p bid hpages hbid
        · simp at hpages
      have hcall : Confines N (fun _ => True) (call op) := by
        cases op with
        | write ino pos data copied =>
            exact .bind (confines_vfs_write ino pos data copied) fun _ _ => .pure trivial
        | _ =>
            exact .bind (.plain (confined_step _)) fun r _ => .bind htruncate fun _ _ =>
              .pure trivial
      exact .bind hcall fun _ _ => .pure trivial
  | read ino off => exact .bind (confines_vfs_read ino off) fun _ _ => .pure trivial
  | readahead ino idx => exact .bind (confines_yaf_readahead ino idx) fun _ _ => .pure trivial
  | writepage ino idx => exact .bind (confines_yaf_writepage ino idx) fun _ _ => .pure trivial
  | reclaim ino idx =>
      have hdrop : Confines N (fun _ => True) (modify fun c => c.setPage ino idx none) := by
        intro c hc
        refine ⟨fun n k p bid hp hbid => ?_, refl_of (Confined N) c.world, trivial⟩
        have hpages : (if n = ino ∧ k = idx then none else c.pages n k) = some p := hp
        split at hpages
        · simp at hpages
        · exact hc n k p bid hpages hbid
      exact .bind hdrop fun _ _ => .pure trivial

end Paged

end Yaf
