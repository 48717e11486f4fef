/-
**Locked inodes.**

`iget_locked` hashes a new in-memory inode locked, and whoever asks for the same number waits until
it is unlocked.  `yaf_iget` unlocks it once it is filled in; when the block of the slot cannot be
read it returns an error and leaves the lock.  Nothing else locks or unlocks an inode, so such a
lock stays for good.

Main definitions:

* `Yaf.World.locked`, `Yaf.World.strands` — a locked inode, and when `yaf_iget` leaves one;
* `Yaf.Locks` — no lock is released, and none is left when inode blocks can be read;
* `Yaf.World.Again` — a number can be had again, whatever happens until then.

Main results:

* `Yaf.step_locks` — **every operation keeps the locks**;
* `Yaf.yaf_iget_usable_iff` — **a failed load leaves the inode cache usable** exactly when it was
  not the read of the slot that failed;
* `Yaf.blocked_of_strands` — otherwise every later load of the number waits forever.
-/

import Yaf.Failures

set_option relaxedAutoImplicit false
set_option autoImplicit false

namespace Yaf

open Prog

/-! ### Locks -/

namespace World

/-- The in-memory inode of a number is locked. -/
def locked (w : World) (n : ℕ) : Bool := ((w.icache n).map InCore.isNew).getD false

/-- Loading a number waits for its lock. -/
def waits (w : World) (n : ℕ) : Bool :=
  decide (n < w.sb.nr_i * INODES_PER_BLOCK) && w.locked n

/-- Blocks of inodes can be read. -/
def ReadsInodes (w : World) : Prop := ∀ bid d, w.io (.bread .inode bid) d = true

/-- The load of a number gets its new in-memory inode, and cannot read the slot. -/
def strands (w : World) (n : ℕ) : Bool :=
  decide (n < w.sb.nr_i * INODES_PER_BLOCK) && (w.icache n).isNone &&
    w.io .iget_locked w.disk && !w.readable .inode (INO2BID w.sb n)

/-- An inode that the VFS holds is not locked. -/
theorem locked_of_inode? {w : World} {n : ℕ} {i : Inode} (h : w.inode? n = some i) :
    w.locked n = false := by
  unfold inode? at h
  rw [locked]
  cases hc : w.icache n with
  | none => rfl
  | some c =>
      rw [hc] at h
      cases hn : c.isNew with
      | false => exact hn
      | true => simp [hn] at h

theorem locked_setCore (w : World) (n m : ℕ) (c : Option InCore) :
    (w.setCore n c).locked m = if m = n then (c.map InCore.isNew).getD false else w.locked m := by
  rw [locked]
  split
  · subst m
    rw [icache_setCore_self]
  · rw [icache_setCore_of_ne _ _ _ ‹_›, locked]

/-- Changing a field of an in-memory inode leaves its lock. -/
theorem locked_setCore_map (w : World) (n m : ℕ) {f : InCore → InCore}
    (hf : ∀ c, (f c).isNew = c.isNew) :
    (w.setCore n ((w.icache n).map f)).locked m = w.locked m := by
  rw [locked_setCore]
  split
  · subst m
    rw [locked, Option.map_map]
    exact congrArg (fun g => ((w.icache n).map g).getD false) (funext hf)
  · rfl

end World

/-- **No lock is released**, and none is left behind when inode blocks can be read. -/
structure Locks (w w' : World) : Prop where
  sb : w'.sb = w.sb
  nblk : w'.nblk = w.nblk
  io : w'.io = w.io
  stay : ∀ n, w.locked n = true → w'.locked n = true
  none : w.sb.Ok w.nblk → w.ReadsInodes → ∀ n, w'.locked n = true → w.locked n = true

namespace Locks

/-- The locks are the same. -/
theorem of_same {w w' : World} (hsb : w'.sb = w.sb) (hnblk : w'.nblk = w.nblk)
    (hio : w'.io = w.io) (h : ∀ n, w'.locked n = w.locked n) : Locks w w' := by
  refine ⟨hsb, hnblk, hio, ?_, ?_⟩
  · intro n hn
    rwa [h]
  · intro _ _ n hn
    rwa [← h]

theorem refl (w : World) : Locks w w := .of_same rfl rfl rfl fun _ => rfl

theorem trans {w w₁ w₂ : World} (h : Locks w w₁) (h' : Locks w₁ w₂) : Locks w w₂ := by
  refine ⟨h'.sb.trans h.sb, h'.nblk.trans h.nblk, h'.io.trans h.io, ?_, ?_⟩
  · intro n hn
    exact h'.stay n (h.stay n hn)
  · intro hok hread n hn
    have hok₁ : w₁.sb.Ok w₁.nblk := by
      rw [h.sb, h.nblk]
      exact hok
    have hread₁ : w₁.ReadsInodes := by
      rw [World.ReadsInodes, h.io]
      exact hread
    exact h.none hok hread n (h'.none hok₁ hread₁ n hn)

theorem waits {w w' : World} (h : Locks w w') (hok : w.sb.Ok w.nblk) (hread : w.ReadsInodes)
    {n : ℕ} (hn : w.waits n = false) : w'.waits n = false := by
  rw [World.waits, Bool.and_eq_false_iff, decide_eq_false_iff_not] at hn ⊢
  rw [h.sb]
  refine hn.imp_right fun hfree => ?_
  rw [Bool.eq_false_iff] at hfree ⊢
  exact fun hl => hfree (h.none hok hread n hl)

instance : IsPreorder World Locks where
  refl := Locks.refl
  trans _ _ _ := Locks.trans

end Locks

/-- The ways to stop other than waiting for a lock. -/
abbrev NotBlocked : Fault → Prop := fun e => e ≠ .blocked

/-! ### The kernel functions -/

section Kernel

theorem locks_assert (c : Bool) : Within Locks NotBlocked (assert c) :=
  Within.ite (.pure _) (.throw (by decide))

theorem locks_sb_bread (site : Site) (bid : ℕ) : Within Locks NotBlocked (sb_bread site bid) :=
  .bind .get fun _ => .pure _

theorem locks_bData (bid : ℕ) : Within Locks NotBlocked (bData bid) := .bind .get fun _ => .pure _

theorem locks_current_time : Within Locks NotBlocked current_time := .bind .get fun _ => .pure _

theorem locks_modifyBuf (bid : ℕ) (f : Block → Block) :
    Within Locks NotBlocked (modifyBuf bid f) :=
  .modify fun _ => .of_same rfl rfl rfl fun _ => rfl

theorem locks_modifyInode (ino : ℕ) (f : Inode → Inode) :
    Within Locks NotBlocked (modifyInode ino f) :=
  .modify fun w => .of_same rfl rfl rfl fun n => w.locked_setCore_map ino n fun _ => rfl

theorem locks_mark_inode_dirty (ino : ℕ) : Within Locks NotBlocked (mark_inode_dirty ino) :=
  .modify fun w => .of_same rfl rfl rfl fun n => w.locked_setCore_map ino n fun _ => rfl

theorem locks_getInode (ino : ℕ) : Within Locks NotBlocked (getInode ino) := by
  refine .bind .get fun w => ?_
  cases w.inode? ino with
  | none => exact .throw (by decide)
  | some i => exact .pure i

theorem locks_iblock (i : Inode) (k : ℕ) : Within Locks NotBlocked (iblock i k) := by
  unfold iblock
  split
  · exact .pure _
  · exact .throw (by decide)

theorem locks_setIblock (ino k : ℕ) (dno : UInt32) :
    Within Locks NotBlocked (setIblock ino k dno) := by
  unfold setIblock
  split
  · exact locks_modifyInode _ _
  · exact .throw (by decide)

end Kernel

/-! ### The functions of the driver -/

section Driver

theorem locks_getFreeIdx (min : ℕ) (noRead full : UInt32) (rem bid : ℕ) :
    Within Locks NotBlocked (getFreeIdx min noRead full rem bid) := by
  induction rem generalizing bid with
  | zero => exact .pure _
  | succ rem ih =>
      refine .bind (locks_sb_bread _ _) fun b => .ite ?_ (.pure _)
      refine .bind (locks_bData _) fun b => .bind (locks_modifyBuf _ _) fun _ => ?_
      exact .ite (.pure _) (ih _)

theorem locks_putIdx (bid idx : ℕ) : Within Locks NotBlocked (putIdx bid idx) :=
  .bind (locks_sb_bread _ _) fun _ => .bind (locks_assert _) fun _ => .bind (locks_bData _)
    fun _ => .bind (locks_modifyBuf _ _) fun _ => locks_assert _

theorem locks_yaf_get_free_inode : Within Locks NotBlocked yaf_get_free_inode :=
  .bind .get fun _ => locks_getFreeIdx _ _ _ _ _

theorem locks_yaf_get_free_dblock : Within Locks NotBlocked yaf_get_free_dblock :=
  .bind .get fun _ => locks_getFreeIdx _ _ _ _ _

theorem locks_yaf_put_inode (ino : ℕ) : Within Locks NotBlocked (yaf_put_inode ino) :=
  .bind .get fun _ => locks_putIdx _ _

theorem locks_yaf_put_dblock (dno : UInt32) : Within Locks NotBlocked (yaf_put_dblock dno) :=
  .bind .get fun _ => locks_putIdx _ _

/-- **Loading an inode** waits for its lock and leaves one only when its slot cannot be read. -/
theorem locks_yaf_iget (ino : ℕ) : Within Locks (fun _ => True) (yaf_iget ino) := by
  intro w
  rcases Nat.lt_or_ge ino (w.sb.nr_i * 64) with hlt | hge
  · have hload : w.locked ino = false → Locks w (w.load ino) := by
      intro hfree
      refine .of_same rfl rfl rfl fun n => ?_
      rw [World.load, World.locked_setCore]
      split
      · subst n
        exact hfree.symm
      · rfl
    rw [wp_yaf_iget hlt]
    cases hc : w.icache ino with
    | some c =>
        dsimp only
        split
        · trivial
        split
        · refine hload ?_
          rw [World.locked, hc]
          exact Bool.eq_false_of_not_eq_true ‹_›
        · exact .refl w
    | none =>
        have hnew : w.locked ino = false := by
          rw [World.locked, hc]
          rfl
        dsimp only
        split
        · split
          · exact hload hnew
          · rename_i hread
            -- the inode stays locked, but its block could not be read
            refine ⟨rfl, rfl, rfl, fun n hn => ?_, fun hok hio => ?_⟩
            · rw [World.lock, World.locked_setCore]
              split
              · rfl
              · exact hn
            · refine absurd ?_ hread
              rw [World.readable, hio, Bool.true_and]
              exact decide_eq_true (hok.INO2BID_lt hlt)
        · exact .refl w
  · rw [wp_yaf_iget_of_le hge]
    exact .refl w

theorem locks_yaf_write_inode (ino : ℕ) : Within Locks NotBlocked (yaf_write_inode ino) :=
  .bind .get fun _ => .bind (locks_getInode _) fun _ => .bind (locks_sb_bread _ _) fun _ =>
    .ite (.bind (locks_modifyBuf _ _) fun _ => .pure _) (.pure _)

theorem locks_initInode (dir ino : ℕ) (mode : UInt16) :
    Within Locks NotBlocked (initInode dir ino mode) :=
  .bind .get fun _ => .bind (locks_getInode _) fun _ => .bind (locks_modifyInode _ _) fun _ =>
    .bind (locks_modifyInode _ _) fun _ => .bind locks_current_time fun _ =>
      .bind (locks_modifyInode _ _) fun _ => .bind (locks_modifyInode _ _) fun _ =>
        locks_mark_inode_dirty _

theorem locks_yaf_new_inode (dir : ℕ) (mode : UInt16) :
    Within Locks (fun _ => True) (yaf_new_inode dir mode) := by
  refine .bind (locks_yaf_get_free_inode.mono fun _ _ => trivial) fun ino => .ite (.pure _) ?_
  refine .bind (locks_yaf_iget _) fun ret => .ite ?_ ?_
  · exact .bind ((locks_yaf_put_inode _).mono fun _ _ => trivial) fun _ => .pure _
  · exact .bind ((locks_initInode _ _ _).mono fun _ _ => trivial) fun _ => .pure _

theorem locks_scanDir (hit : Block → ℕ → Bool) (dir : Inode) (rem doff : ℕ) :
    Within Locks NotBlocked (scanDir hit dir rem doff) := by
  induction rem generalizing doff with
  | zero => exact .ite (.throw (by decide)) (.pure _)
  | succ rem ih =>
      refine .ite ?_ (.pure _)
      refine .bind .get fun w => .bind (locks_iblock _ _) fun dno => ?_
      refine .bind (locks_sb_bread _ _) fun b => .ite ?_ (.pure _)
      refine .bind (locks_bData _) fun b => ?_
      split
      · exact .pure _
      · exact ih _

theorem locks_attachDentryBlock (dir doff : ℕ) :
    Within Locks NotBlocked (attachDentryBlock dir doff) :=
  .bind locks_yaf_get_free_dblock fun _ => .ite (.pure _)
    (.bind (locks_getInode _) fun _ => .bind (locks_iblock _ _) fun _ =>
      .bind (locks_assert _) fun _ => .bind (locks_setIblock _ _ _) fun _ => .pure _)

theorem locks_appendDentry (dir doff : ℕ) : Within Locks NotBlocked (appendDentry dir doff) :=
  .bind .get fun _ => .bind (locks_getInode _) fun _ => .bind (locks_iblock _ _) fun _ =>
    .bind (locks_sb_bread _ _) fun _ => .bind (locks_assert _) fun _ =>
      .bind (locks_modifyBuf _ _) fun _ => .bind (locks_modifyInode _ _) fun _ =>
        .bind locks_current_time fun _ => .bind (locks_modifyInode _ _) fun _ =>
          .bind (locks_mark_inode_dirty _) fun _ => .pure _

theorem locks_yaf_get_free_dentry (dir : ℕ) :
    Within Locks NotBlocked (yaf_get_free_dentry dir) := by
  refine .bind (locks_getInode _) fun di => .bind (locks_scanDir _ _ _ _) fun r => ?_
  cases r with
  | noRead => exact .pure _
  | found doff => exact .pure _
  | done doff =>
      refine .ite (.pure _) (.ite ?_ (locks_appendDentry _ _))
      exact .bind (locks_attachDentryBlock _ _) fun _ => .ite (locks_appendDentry _ _) (.pure _)

theorem locks_lookup (dir : ℕ) (q : Qstr) : Within Locks NotBlocked (_yaf_lookup dir q) := by
  refine .ite (.pure _) (.bind (locks_getInode _) fun di => ?_)
  refine .bind (locks_scanDir _ _ _ _) fun r => ?_
  cases r with
  | noRead => exact .pure _
  | found doff => exact .pure _
  | done doff => exact .pure _

theorem locks_linkDentry (dir : ℕ) (q : Qstr) (mode : UInt16) (doff : ℕ) :
    Within Locks (fun _ => True) (linkDentry dir q mode doff) := by
  refine .bind .get fun w => .bind ((locks_getInode _).mono fun _ _ => trivial) fun i => ?_
  refine .bind ((locks_iblock _ _).mono fun _ _ => trivial) fun dno => ?_
  refine .bind ((locks_sb_bread _ _).mono fun _ _ => trivial) fun b => .ite ?_ (.pure _)
  refine .bind (locks_yaf_new_inode _ _) fun r => ?_
  cases r with
  | error e => exact .pure _
  | ok n =>
      exact Within.mono (E := NotBlocked) (.bind (locks_modifyBuf _ _) fun _ =>
        .bind locks_current_time fun _ => .bind (locks_modifyInode _ _) fun _ =>
          .bind (locks_modifyInode _ _) fun _ => .bind (locks_mark_inode_dirty _) fun _ =>
            .pure _) fun _ _ => trivial

theorem locks_create (dir : ℕ) (q : Qstr) (mode : UInt16) :
    Within Locks (fun _ => True) (_yaf_create dir q mode) :=
  .ite (.pure _) (.bind ((locks_yaf_get_free_dentry _).mono fun _ _ => trivial)
    fun _ => locks_linkDentry _ _ _ _)

theorem locks_lookupOut (dir : ℕ) : Within Locks NotBlocked (lookupOut dir) :=
  .bind locks_current_time fun _ => .bind (locks_modifyInode _ _) fun _ =>
    .bind (locks_mark_inode_dirty _) fun _ => .pure _

theorem locks_yaf_lookup (dir : ℕ) (q : Qstr) :
    Within Locks (fun _ => True) (yaf_lookup dir q) := by
  have hout : Within Locks (fun _ => True) (lookupOut dir) :=
    (locks_lookupOut dir).mono fun _ _ => trivial
  refine .bind ((locks_lookup _ _).mono fun _ _ => trivial) fun doff => .ite ?_ ?_
  · exact .ite hout (.pure _)
  refine .bind .get fun w => .bind ((locks_getInode _).mono fun _ _ => trivial) fun i => ?_
  refine .bind ((locks_iblock _ _).mono fun _ _ => trivial) fun dno => ?_
  refine .bind ((locks_sb_bread _ _).mono fun _ _ => trivial) fun b => .ite ?_ (.pure _)
  refine .bind ((locks_bData _).mono fun _ _ => trivial) fun b => ?_
  exact .bind (locks_yaf_iget _) fun ret => .ite (.pure _) hout

theorem locks_putBlocks (inode : Inode) (rem k : ℕ) :
    Within Locks NotBlocked (putBlocks inode rem k) := by
  induction rem generalizing k with
  | zero => exact .ite (.throw (by decide)) (.pure _)
  | succ rem ih =>
      exact .ite (.bind (locks_iblock _ _) fun _ => .bind (locks_yaf_put_dblock _) fun _ => ih _)
        (.pure _)

theorem locks_unlinkDentry (dir ino doff : ℕ) :
    Within Locks NotBlocked (unlinkDentry dir ino doff) := by
  refine .bind .get fun w => .bind (locks_getInode _) fun i => .bind (locks_iblock _ _) fun dno => ?_
  refine .bind (locks_sb_bread _ _) fun b => .ite ?_ (.pure _)
  refine .bind (locks_modifyBuf _ _) fun _ => .bind locks_current_time fun _ => ?_
  refine .bind (locks_modifyInode _ _) fun _ => .bind (locks_modifyInode _ _) fun _ => ?_
  refine .bind (locks_mark_inode_dirty _) fun _ => .bind (locks_modifyInode _ _) fun _ => ?_
  refine .bind (locks_getInode _) fun inode => .ite ?_ ?_
  · exact .bind (locks_mark_inode_dirty _) fun _ => .pure _
  · exact .bind (locks_putBlocks _ _ _) fun _ => .bind (locks_yaf_put_inode _) fun _ =>
      .bind (locks_mark_inode_dirty _) fun _ => .pure _

theorem locks_yaf_delete (dir : ℕ) (q : Qstr) (ino : ℕ) :
    Within Locks NotBlocked (yaf_delete dir q ino) :=
  .bind (locks_lookup _ _) fun _ => .bind (locks_assert _) fun _ => locks_unlinkDentry _ _ _

theorem locks_yaf_rmdir (dir : ℕ) (q : Qstr) (ino : ℕ) :
    Within Locks NotBlocked (yaf_rmdir dir q ino) :=
  .bind (locks_getInode _) fun _ => .ite (.pure _) (locks_yaf_delete _ _ _)

theorem locks_allocBlocks (ino rem dbnr : ℕ) :
    Within Locks NotBlocked (allocBlocks ino rem dbnr) := by
  induction rem generalizing dbnr with
  | zero => exact .pure _
  | succ rem ih =>
      refine .bind locks_yaf_get_free_dblock fun dno => .ite ?_ ?_
      · exact .bind (locks_mark_inode_dirty _) fun _ => .pure _
      · exact .bind (locks_setIblock _ _ _) fun _ => ih _

theorem locks_yaf_get_block (ino iblk : ℕ) (create : Bool) :
    Within Locks NotBlocked (yaf_get_block ino iblk create) := by
  have hmap : ∀ sb : Yaf_Sb_Info, Within Locks NotBlocked (do
      pure ((0 : ℤ), some (DNO2BID sb (← iblock (← getInode ino) iblk).toNat))) :=
    fun _ => .bind (locks_getInode _) fun _ => .bind (locks_iblock _ _) fun _ => .pure _
  refine .bind .get fun w => .ite (.pure _) (.bind (locks_getInode _) fun i => .ite ?_ (hmap _))
  refine .ite (.bind (locks_allocBlocks _ _ _) fun ok => .ite ?_ (.pure _)) (.pure _)
  exact .bind (locks_mark_inode_dirty _) fun _ => hmap _

theorem locks_vfs_write (ino pos : ℕ) (data : List UInt8) (copied : ℕ) :
    Within Locks NotBlocked (vfs_write ino pos data copied) := by
  have hbegin : Within Locks NotBlocked (block_write_begin ino pos) := by
    refine .bind (locks_yaf_get_block _ _ _) fun r => ?_
    split
    · exact .ite (.pure _) (.bind (locks_sb_bread _ _) fun _ => .ite (.pure _) (.pure _))
    · exact .pure _
  have hend : ∀ bid, Within Locks NotBlocked (yaf_write_end ino pos data copied bid) := by
    intro bid
    refine .bind (.bind (locks_modifyBuf _ _) fun _ => .bind (locks_getInode _) fun i => ?_)
      fun ret => .ite (.pure _) ?_
    · refine .ite ?_ (.pure _)
      exact .bind (locks_modifyInode _ _) fun _ => .bind (locks_mark_inode_dirty _) fun _ =>
        .pure _
    · exact .bind locks_current_time fun _ => .bind (locks_modifyInode _ _) fun _ =>
        .bind (locks_modifyInode _ _) fun _ => .bind (locks_mark_inode_dirty _) fun _ => .pure _
  refine .bind (.ite (.pure _) hbegin) fun r => ?_
  cases r with
  | error e => exact .pure _
  | ok bid => exact hend bid

end Driver

/-! ### Operations -/

/-- Leaving the cache, an inode that the VFS holds has no lock. -/
theorem locks_iput (ino : ℕ) : Within Locks NotBlocked (iput ino) := by
  intro w
  rw [wp_iput, World.iput]
  cases hi : w.inode? ino with
  | none => exact .refl w
  | some i =>
      dsimp only
      split
      · refine .of_same rfl rfl rfl fun n => ?_
        rw [World.locked_setCore]
        split
        · subst n
          exact (World.locked_of_inode? hi).symm
        · rfl
      · exact .refl w

theorem locks_remove {op : Driver ℤ} (h : Within Locks NotBlocked op) (ino : ℕ) :
    Within Locks NotBlocked (remove op ino) :=
  .bind h fun _ => .ite (.bind (locks_iput _) fun _ => .pure _) (.pure _)

/-- **Every operation keeps the locks**, also when the device begins or ceases to fail. -/
theorem step_locks {w : World} {op : Op} (hpre : op.Pre w) :
    wp (step op) (fun _ w' => ∃ io, Locks w { w' with io := io }) (fun _ => True) w := by
  -- the operations that leave the device as it is
  have hkeep : ∀ {x : Driver Reply} {E : Fault → Prop}, Within Locks E x →
      wp x (fun _ w' => ∃ io, Locks w { w' with io := io }) (fun _ => True) w := by
    intro x E hx
    exact wp_mono (hx w) (fun _ w' h => ⟨w'.io, h⟩) fun _ _ => trivial
  cases op with
  | lookup dir q => exact hkeep (.bind (locks_yaf_lookup dir q) fun _ => .pure _)
  | create dir q mode => exact hkeep (locks_create dir q (mode ||| S_IFREG))
  | mkdir dir q mode => exact hkeep (locks_create dir q (mode ||| S_IFDIR))
  | unlink dir q ino =>
      exact hkeep (.bind (locks_remove (locks_yaf_delete dir q ino) ino) fun _ => .pure _)
  | rmdir dir q ino =>
      exact hkeep (.bind (locks_remove (locks_yaf_rmdir dir q ino) ino) fun _ => .pure _)
  | write ino pos data copied =>
      exact hkeep (.bind (locks_vfs_write ino pos data copied) fun _ => .pure _)
  | setSize ino size =>
      refine hkeep (E := NotBlocked) (.bind ?_ fun _ => .pure _)
      exact .bind (locks_modifyInode _ _) fun _ => .bind (locks_mark_inode_dirty _) fun _ =>
        .pure _
  | openFile ino =>
      refine hkeep (E := NotBlocked) (.bind (.modify fun _ => ?_) fun _ => .pure _)
      exact .of_same rfl rfl rfl fun _ => rfl
  | closeFile ino =>
      refine hkeep (.bind (.modify fun _ => ?_) fun _ => .bind (locks_iput ino) fun _ => .pure _)
      exact .of_same rfl rfl rfl fun _ => rfl
  | writeInode ino =>
      refine hkeep (.bind (.bind (.modify fun w => ?_) fun _ => locks_yaf_write_inode ino)
        fun _ => .pure _)
      exact .of_same rfl rfl rfl fun n => w.locked_setCore_map ino n fun _ => rfl
  | evict ino =>
      obtain ⟨-, hnew, -, -⟩ := hpre
      refine ⟨w.io, .of_same rfl rfl rfl fun n => ?_⟩
      refine (World.locked_setCore w ino n none).trans ?_
      split
      · subst n
        rw [World.locked, hnew]
        rfl
      · rfl
  | tick now fsuid fsgid =>
      refine hkeep (E := NotBlocked) (.bind (.modify fun _ => ?_) fun _ => .pure _)
      exact .of_same rfl rfl rfl fun _ => rfl
  | device io => exact ⟨w.io, .refl w⟩

section Runs

variable {w w' : World} {n : ℕ} {l : List (Op × Reply)}

/-- **A lock stays for good.** -/
theorem locked_of_run (hrun : Run step (fun w op => op.Pre w) w l w') (h : w.locked n = true) :
    w'.locked n = true := by
  refine hrun.invariant (I := fun w => w.locked n = true) h fun s op r s' hs hpre hr => ?_
  obtain ⟨io, hlocks⟩ := (step_locks hpre).ok hr
  exact hlocks.stay n hs

/-- **No lock appears** while blocks of inodes can be read. -/
theorem waits_of_run (hok : w.sb.Ok w.nblk)
    (hrun : Run step (fun w op => op.Pre w ∧ w.ReadsInodes) w l w') (h : w.waits n = false) :
    w'.sb.Ok w'.nblk ∧ w'.waits n = false := by
  refine hrun.invariant (I := fun w => w.sb.Ok w.nblk ∧ w.waits n = false) ⟨hok, h⟩ ?_
  rintro s op r s' ⟨hs, hn⟩ ⟨hpre, hread⟩ hr
  obtain ⟨io, hlocks⟩ := (step_locks hpre).ok hr
  have hnblk : s'.nblk = s.nblk := hlocks.nblk
  constructor
  · have hsb : s'.sb = s.sb := hlocks.sb
    rwa [hsb, hnblk]
  · exact hlocks.waits hs hread hn

end Runs

/-! ### Loading again -/

section Again

variable {w : World} {n : ℕ}

/-- The in-memory inode of a number in range, when nobody waits for it. -/
theorem isNew_of_waits (h : w.waits n = false) (hlt : n < w.sb.nr_i * 64) {c : InCore}
    (hc : w.icache n = some c) : c.isNew = false := by
  rw [World.waits, INODES_PER_BLOCK_eq, decide_eq_true hlt, Bool.true_and, World.locked, hc] at h
  exact h

/-- An inode that is not locked is not waited for. -/
theorem iget_of_waits (h : w.waits n = false) :
    wp (yaf_iget n) (fun _ _ => True) NotBlocked w := by
  rcases Nat.lt_or_ge n (w.sb.nr_i * 64) with hlt | hge
  · rw [wp_yaf_iget hlt]
    cases hc : w.icache n with
    | some c =>
        have hnew := isNew_of_waits h hlt hc
        dsimp only
        rw [hnew, if_neg Bool.false_ne_true]
        split <;> trivial
    | none =>
        dsimp only
        split
        · split <;> trivial
        · trivial
  · rw [wp_yaf_iget_of_le hge]
    trivial

/-- A locked one is. -/
theorem iget_of_locked (hlt : n < w.sb.nr_i * 64) (h : w.locked n = true) :
    wp (yaf_iget n) (fun _ _ => False) (fun e => e = .blocked) w := by
  rw [wp_yaf_iget hlt]
  cases hc : w.icache n with
  | some c =>
      have hnew : c.isNew = true := by
        rw [World.locked, hc] at h
        exact h
      dsimp only
      rw [hnew, if_pos rfl]
  | none =>
      rw [World.locked, hc] at h
      exact absurd h Bool.false_ne_true

/-- The creation of an inode whose number is not locked is not blocked. -/
theorem new_inode_of_waits (hok : w.sb.Ok w.nblk) {dir : ℕ} {i : Inode}
    (hi : w.inode? dir = some i) (hn : (Mem.clears w.ibit 32768).head? = some n)
    (h : w.waits n = false) (mode : UInt16) :
    wp (yaf_new_inode dir mode) (fun _ _ => True) NotBlocked w := by
  cases hr : w.readable .bitmap (BID_IBP_MIN w.sb) with
  | false =>
      rw [wp_yaf_new_inode_of_noRead hok hr]
      trivial
  | true =>
      rcases Nat.eq_zero_or_pos n with h₀ | hpos
      · rw [wp_yaf_new_inode_zero hok hr hn h₀]
        trivial
      rcases Nat.lt_or_ge n (w.sb.nr_i * 64) with hlt | hge
      · obtain ⟨d, hd⟩ := exists_inode?_load hi n
        rw [wp_yaf_new_inode_of_lt hok hr hn hpos.ne' hlt hd]
        dsimp only
        cases hc : w.icache n with
        | some c =>
            have hnew := isNew_of_waits h hlt hc
            dsimp only
            rw [hnew, if_neg Bool.false_ne_true]
            repeat' split
            all_goals trivial
        | none =>
            dsimp only
            repeat' split
            all_goals trivial
      · rw [wp_yaf_new_inode_of_le hok hr hn hpos.ne' hge]
        split
        · trivial
        · decide

/-- First fit looks at the bits of the view. -/
theorem clears_ibit_congr {w₁ : World} (hpos : 0 < w.sb.nr_ibp) (hsb : w₁.sb = w.sb)
    (h : w₁.view.iset = w.view.iset) : Mem.clears w₁.ibit 32768 = Mem.clears w.ibit 32768 := by
  refine Mem.clears_congr fun m hm => ?_
  rw [← World.iset_of_lt (w := w) (by omega), ← World.iset_of_lt (w := w₁) (by rw [hsb]; omega), h]

/-- **A creation that meets a number without a lock** is not blocked. -/
theorem create_of_waits (hok : w.sb.Ok w.nblk) (hread : w.ReadsInodes) {dir : ℕ}
    (hdir : w.holds S_ISDIR dir = true) (hn : (Mem.clears w.ibit 32768).head? = some n)
    (h : w.waits n = false) (q : Qstr) (mode : UInt16) :
    wp (_yaf_create dir q mode) (fun _ _ => True) NotBlocked w := by
  obtain ⟨i, hi, -⟩ := World.exists_of_holds hdir
  rw [_yaf_create]
  split
  · trivial
  rw [wp_bind]
  refine wp_mono (wp_and (locks_yaf_get_free_dentry dir w) (get_free_dentry_ge hok hi)) ?_
    fun _ h => h.1
  rintro r w₁ ⟨hlocks, -, hiset, j, hj⟩
  have hfree := hlocks.waits hok hread h
  have hok₁ : w₁.sb.Ok w₁.nblk := by
    rw [hlocks.sb, hlocks.nblk]
    exact hok
  rw [← clears_ibit_congr hok.ibp_pos hlocks.sb hiset] at hn
  rcases Nat.lt_or_ge ((r % 2 ^ 64).toNat / 4096) 8 with hk | hk
  · rw [wp_linkDentry hj hk]
    split
    · refine wp_mono (new_inode_of_waits hok₁ hj hn hfree mode) (fun r w₂ _ => ?_) fun _ h => h
      cases r <;> trivial
    · trivial
  · rw [wp_linkDentry_of_le hj hk]
    decide

end Again

/-- **A number can be had again.**  Whatever happens until then, as long as blocks of inodes can be
read, loading the number is not blocked, and neither is a creation whose search finds it. -/
def World.Again (w : World) (n : ℕ) : Prop :=
  ∀ l w', Run step (fun w op => op.Pre w ∧ w.ReadsInodes) w l w' → w'.ReadsInodes →
    wp (yaf_iget n) (fun _ _ => True) NotBlocked w' ∧
    ∀ dir q mode, w'.holds S_ISDIR dir = true →
      (Mem.clears w'.ibit BITS_PER_BLOCK).head? = some n →
      wp (_yaf_create dir q mode) (fun _ _ => True) NotBlocked w'

section Usable

variable {w : World} {n : ℕ}

theorem again_of_waits (hok : w.sb.Ok w.nblk) (h : w.waits n = false) : w.Again n := by
  intro l w' hrun hread
  obtain ⟨hok', hfree⟩ := waits_of_run hok hrun h
  refine ⟨iget_of_waits hfree, fun dir q mode hdir hn => ?_⟩
  rw [BITS_PER_BLOCK_eq] at hn
  exact create_of_waits hok' hread hdir hn hfree q mode

/-- **A number whose slot could not be read is lost**: whatever happens until then, whoever loads
it waits. -/
theorem blocked_of_strands (hs : w.strands n = true) :
    wp (yaf_iget n) (fun r w' => (r = - EIO ∧ w.locked n = false ∧ w'.locked n = true) ∧
      ∀ l w'', Run step (fun w op => op.Pre w) w' l w'' →
        wp (yaf_iget n) (fun _ _ => False) (fun e => e = .blocked) w'') (fun _ => False) w := by
  rw [World.strands, INODES_PER_BLOCK_eq] at hs
  simp only [Bool.and_eq_true, decide_eq_true_eq, Option.isNone_iff_eq_none,
    Bool.not_eq_true'] at hs
  obtain ⟨⟨⟨hlt, hc⟩, hio⟩, hread⟩ := hs
  have hlock : (w.lock n).locked n = true := by
    rw [World.lock, World.locked_setCore, if_pos rfl]
    rfl
  rw [wp_yaf_iget hlt, hc]
  dsimp only
  rw [if_pos hio, hread, if_neg Bool.false_ne_true]
  refine ⟨⟨rfl, by rw [World.locked, hc]; rfl, hlock⟩, fun l w' hrun => ?_⟩
  obtain ⟨hsb, hl⟩ : w'.sb = w.sb ∧ w'.locked n = true := by
    refine hrun.invariant (I := fun w' => w'.sb = w.sb ∧ w'.locked n = true) ⟨rfl, hlock⟩ ?_
    rintro s op r s' ⟨hsb, hl⟩ hpre hr
    obtain ⟨io, hlocks⟩ := (step_locks hpre).ok hr
    exact ⟨hlocks.sb.trans hsb, hlocks.stay n hl⟩
  refine iget_of_locked ?_ hl
  rwa [hsb]

theorem not_usable_of_strands (hs : w.strands n = true) :
    ¬wp (yaf_iget n) (fun r w' => r < 0 →
      (∀ m, w'.locked m = true → w.locked m = true) ∧ w'.Again n) (fun _ => True) w := by
  refine (blocked_of_strands hs).not ?_ fun _ h _ => h
  rintro r w' ⟨⟨rfl, hfree, hlock⟩, -⟩ h
  have := (h (by decide)).1 n hlock
  rw [hfree] at this
  exact Bool.false_ne_true this

/-- **A failed load leaves the inode cache usable** exactly when it was not the read of the slot,
for a new in-memory inode, that failed. -/
theorem yaf_iget_usable_iff (hok : w.sb.Ok w.nblk) (n : ℕ) :
    wp (yaf_iget n) (fun r w' => r < 0 →
      (∀ m, w'.locked m = true → w.locked m = true) ∧ w'.Again n) (fun _ => True) w ↔
      w.strands n = false := by
  have hsame : w.waits n = false →
      (∀ m, w.locked m = true → w.locked m = true) ∧ w.Again n :=
    fun h => ⟨fun _ h => h, again_of_waits hok h⟩
  have hwaits : w.waits n = (decide (n < w.sb.nr_i * 64) && w.locked n) := rfl
  cases hs : w.strands n with
  | true => exact iff_of_false (not_usable_of_strands hs) (by simp)
  | false =>
      refine iff_of_true ?_ rfl
      rw [World.strands, INODES_PER_BLOCK_eq] at hs
      rcases Nat.lt_or_ge n (w.sb.nr_i * 64) with hlt | hge
      · rw [decide_eq_true hlt, Bool.true_and] at hs
        rw [decide_eq_true hlt, Bool.true_and] at hwaits
        rw [wp_yaf_iget hlt]
        cases hc : w.icache n with
        | some c =>
            dsimp only
            split
            · trivial
            split
            · exact fun h => absurd h (Int.lt_irrefl 0)
            · refine fun _ => hsame ?_
              rw [hwaits, World.locked, hc]
              exact Bool.eq_false_of_not_eq_true ‹_›
        | none =>
            rw [hc, Option.isNone_none, Bool.true_and] at hs
            dsimp only
            split
            · split
              · exact fun h => absurd h (Int.lt_irrefl 0)
              · simp [*] at hs
            · refine fun _ => hsame ?_
              rw [hwaits, World.locked, hc]
              rfl
      · rw [wp_yaf_iget_of_le hge]
        refine fun _ => hsame ?_
        rw [hwaits, decide_eq_false (Nat.not_lt.2 hge), Bool.false_and]

end Usable

/-- There was no memory for the inode, and the number can be had again. -/
theorem yaf_iget_usable_starved :
    wp (yaf_iget 2) (fun r w' => r < 0 →
      (∀ m, w'.locked m = true → Volume.starved.locked m = true) ∧ w'.Again 2) (fun _ => True)
      Volume.starved :=
  (yaf_iget_usable_iff (w := Volume.starved) (Volume.held_mounted Volume.small_ok).layout 2).2
    (by decide +kernel)

/-- **The block of the inodes cannot be read**, and the number that was loaded stays locked. -/
theorem not_usable_unreadable : ∃ l w, Run step (fun w op => op.Pre w) (fresh .small) l w ∧
    ¬wp (yaf_iget 2) (fun r w' => r < 0 →
      (∀ m, w'.locked m = true → w.locked m = true) ∧ w'.Again 2) (fun _ => True) w := by
  obtain ⟨l, w, hrun, hp⟩ := Volume.exists_run Volume.small_ok (fun w op => op.Pre w)
    [.device (unreadable 3)] (fun _ w => w.strands 2) (by decide +kernel)
  exact ⟨l, w, hrun, not_usable_of_strands hp⟩

end Yaf
