/-
**When the driver panics.**

In a run on a device that does not fail, two assertions can be false.  One is that in
`yaf_get_free_dentry` that the block for the next slot of a directory can be read.  It is false
exactly when the first clear bit of the data bitmap belongs to no block of the device, which is how
a full device looks.  The other is that in `yaf_put_inode`, which a creation reaches when the first
block of the inode bitmap is full: the error code of the search is taken for a number, and given
back.  Its bit is in a block that devices of up to 131072 blocks do not have.

Main definitions:

* `Yaf.World.needsBlock` — whether the next slot of a directory needs a block;
* `Yaf.Op.strands` — **whether a creation needs a block and there is none**;
* `Yaf.Op.Called`, `Yaf.Op.Sane` — the calls of the VFS, and those a run is made of.

Main results:

* `Yaf.Mirrors.panics_iff` — a step panics exactly when it finds no block or no number;
* `Yaf.panics_iff_of_run` — so does every step of a run;
* `Yaf.not_healthy_full` — creating a file on a full device panics.
-/

import Yaf.Contents
import Yaf.Growth

set_option relaxedAutoImplicit false
set_option autoImplicit false

namespace Yaf

open Prog

variable {w : World} {s s' : Namespace}

/-! ### Directories that need a block -/

/-- Whether the next slot of a directory needs a block: its slots are occupied and fill its blocks,
and there may be more of them. -/
def World.needsBlock (w : World) (i : Inode) : Bool :=
  (List.range (i.i_size / YAF_DENTRY_SIZE)).all (w.slotLive i) &&
    decide (i.i_size / YAF_DENTRY_SIZE ≠ MAX_DENTRYS) && decide (i.i_size % YAF_BLOCK_SIZE = 0)

/-- **Whether a creation needs a block and there is none**: the first clear bit of the data bitmap
is that of a block of the device otherwise. -/
def Op.strands (w : World) : Op → Bool
  | .create dir q _ | .mkdir dir q _ =>
      decide (q.len ≤ YAF_DENTRY_NAME_LEN) && (w.inode? dir).any w.needsBlock &&
        !(Mem.clears w.dbit 32768).head?.any fun d => decide (DNO2BID w.sb d < w.nblk)
  | _ => false

/-- **The calls of the VFS.**  A creation that finds the first block of the inode bitmap full gives a
number back whose bit is behind the end of the device. -/
def Op.Called (w : World) (op : Op) : Prop :=
  op.Pre w ∧ op.isCall = true ∧ (op.overflows w = true → w.nblk ≤ IDXI2BID w.sb NO_BIT.toNat)

instance (w : World) (op : Op) : Decidable (op.Called w) :=
  inferInstanceAs (Decidable (_ ∧ _))

/-- **The calls a run is made of**: no lookup reads an inode whose copy in memory was not written
back, no file is removed while it is open, and no write finds the first block of the data bitmap
full. -/
def Op.Sane (w : World) (op : Op) : Prop :=
  op.Called w ∧ op.overwrites w = false ∧ op.removesOpen w = false ∧ op.starves w = false

instance (w : World) (op : Op) : Decidable (op.Sane w) :=
  inferInstanceAs (Decidable (_ ∧ _))

/-! ### Functions without assertions -/

/-- Code that does not panic, in any state. -/
abbrev Assertless {α : Type} (x : Driver α) : Prop :=
  Within (Same fun _ : World => ()) (fun e => e ≠ .panic) x

section Assertless

theorem assertless_modify (f : World → World) : Assertless (modify f) := .modify fun _ => rfl

theorem assertless_sb_bread (site : Site) (bid : ℕ) : Assertless (sb_bread site bid) :=
  .bind .get fun _ => .pure _

theorem assertless_bData (bid : ℕ) : Assertless (bData bid) := .bind .get fun _ => .pure _

theorem assertless_current_time : Assertless current_time := .bind .get fun _ => .pure _

theorem assertless_getInode (ino : ℕ) : Assertless (getInode ino) := by
  refine .bind .get fun w => ?_
  cases w.inode? ino with
  | none => exact .throw (by decide)
  | some i => exact .pure i

theorem assertless_iblock (i : Inode) (k : ℕ) : Assertless (iblock i k) := by
  unfold iblock
  split
  · exact .pure _
  · exact .throw (by decide)

theorem assertless_setIblock (ino k : ℕ) (dno : UInt32) : Assertless (setIblock ino k dno) := by
  unfold setIblock
  split
  · exact assertless_modify _
  · exact .throw (by decide)

theorem assertless_iget_locked (ino : ℕ) : Assertless (iget_locked ino) := by
  refine .bind .get fun w => ?_
  cases w.icache ino with
  | some c => exact .ite (.throw (by decide)) (.pure _)
  | none =>
      refine .bind (.bind .get fun _ => .pure _) fun b => .ite ?_ (.pure _)
      exact .bind (assertless_modify _) fun _ => .pure _

theorem assertless_yaf_iget (ino : ℕ) : Assertless (yaf_iget ino) := by
  refine .bind .get fun w => .ite (.pure _) ?_
  refine .bind (assertless_iget_locked _) fun b => .ite ?_ (.pure _)
  refine .bind (assertless_sb_bread _ _) fun b => .ite ?_ (.pure _)
  refine .bind (assertless_bData _) fun b => .bind (assertless_modify _) fun _ => ?_
  exact .bind (assertless_modify _) fun _ => .pure _

theorem assertless_scanDir (hit : Block → ℕ → Bool) (dir : Inode) (rem doff : ℕ) :
    Assertless (scanDir hit dir rem doff) := by
  induction rem generalizing doff with
  | zero => exact .ite (.throw (by decide)) (.pure _)
  | succ rem ih =>
      refine .ite ?_ (.pure _)
      refine .bind .get fun w => .bind (assertless_iblock _ _) fun dno => ?_
      refine .bind (assertless_sb_bread _ _) fun b => .ite ?_ (.pure _)
      refine .bind (assertless_bData _) fun b => ?_
      split
      · exact .pure _
      · exact ih _

theorem assertless_lookup (dir : ℕ) (q : Qstr) : Assertless (_yaf_lookup dir q) := by
  refine .ite (.pure _) (.bind (assertless_getInode _) fun di => ?_)
  refine .bind (assertless_scanDir _ _ _ _) fun r => ?_
  cases r with
  | noRead => exact .pure _
  | found doff => exact .pure _
  | done doff => exact .pure _

/-- **A lookup** does not panic. -/
theorem assertless_yaf_lookup (dir : ℕ) (q : Qstr) : Assertless (yaf_lookup dir q) := by
  have hout : Assertless (lookupOut dir) := .bind assertless_current_time fun _ =>
    .bind (assertless_modify _) fun _ => .bind (assertless_modify _) fun _ => .pure _
  refine .bind (assertless_lookup dir q) fun doff => .ite (.ite hout (.pure _)) ?_
  refine .bind .get fun w => .bind (assertless_getInode _) fun i => ?_
  refine .bind (assertless_iblock _ _) fun dno => ?_
  refine .bind (assertless_sb_bread _ _) fun b => .ite ?_ (.pure _)
  refine .bind (assertless_bData _) fun b => .bind (assertless_yaf_iget _) fun ret => ?_
  exact .ite (.pure _) hout

theorem assertless_getFreeIdx (min : ℕ) (noRead full : UInt32) (rem bid : ℕ) :
    Assertless (getFreeIdx min noRead full rem bid) := by
  induction rem generalizing bid with
  | zero => exact .pure _
  | succ rem ih =>
      refine .bind (assertless_sb_bread _ _) fun b => .ite ?_ (.pure _)
      refine .bind (assertless_bData _) fun b => .bind (assertless_modify _) fun _ => ?_
      exact .ite (.pure _) (ih _)

theorem assertless_yaf_get_free_dblock : Assertless yaf_get_free_dblock :=
  .bind .get fun _ => assertless_getFreeIdx _ _ _ _ _

theorem assertless_allocBlocks (ino rem dbnr : ℕ) : Assertless (allocBlocks ino rem dbnr) := by
  induction rem generalizing dbnr with
  | zero => exact .pure _
  | succ rem ih =>
      refine .bind assertless_yaf_get_free_dblock fun dno => .ite ?_ ?_
      · exact .bind (assertless_modify _) fun _ => .pure _
      · exact .bind (assertless_setIblock _ _ _) fun _ => ih _

theorem assertless_yaf_get_block (ino iblk : ℕ) (create : Bool) :
    Assertless (yaf_get_block ino iblk create) := by
  refine .bind .get fun w => .ite (.pure _) (.bind (assertless_getInode _) fun i => ?_)
  have hmap : Assertless (do pure ((0 : ℤ), some (DNO2BID w.sb
      (← iblock (← getInode ino) iblk).toNat))) :=
    .bind (assertless_getInode _) fun _ => .bind (assertless_iblock _ _) fun _ => .pure _
  refine .ite (.ite ?_ (.pure _)) hmap
  refine .bind (assertless_allocBlocks _ _ _) fun b => .ite ?_ (.pure _)
  exact .bind (assertless_modify _) fun _ => hmap

/-- **A write** does not panic. -/
theorem assertless_vfs_write (ino pos : ℕ) (data : List UInt8) (copied : ℕ) :
    Assertless (vfs_write ino pos data copied) := by
  have hbegin : Assertless (yaf_write_begin ino pos data.length) := by
    refine .ite (.pure _) (.bind (assertless_yaf_get_block _ _ _) fun r => ?_)
    obtain ⟨ret, bid⟩ := r
    cases bid with
    | none => exact .pure _
    | some bid =>
        exact .ite (.pure _) (.bind (assertless_sb_bread _ _) fun b => .ite (.pure _) (.pure _))
  refine .bind hbegin fun r => ?_
  cases r with
  | error e => exact .pure _
  | ok bid =>
      have hend : Assertless (generic_write_end ino pos data copied bid) := by
        refine .bind (assertless_modify _) fun _ => .bind (assertless_getInode _) fun i => ?_
        refine .ite (.bind (assertless_modify _) fun _ => ?_) (.pure _)
        exact .bind (assertless_modify _) fun _ => .pure _
      refine .bind hend fun ret => .ite (.pure _) (.bind assertless_current_time fun cur => ?_)
      refine .bind (assertless_modify _) fun _ => .bind (assertless_modify _) fun _ => ?_
      exact .bind (assertless_modify _) fun _ => .pure _

end Assertless

/-! ### One step -/

namespace Mirrors

/-- Whether all slots are occupied. -/
theorem all_slotLive (h : Mirrors w s) {p : ℕ} (hp : s.Live p) (hd : s.IsDir p) :
    (List.range (s.count p)).all (w.slotLive (s.node p)) = (s.freeSlot p).isNone := by
  have hlive : ∀ j < s.count p, w.slotLive (s.node p) j = (s.slot p j).isSome := by
    intro j hj
    have hentry := h.shows p j hp hd hj
    rw [World.slotLive]
    have hfree := hentry.isFree_eq
    rw [Inode.slotBlk] at hfree
    rw [hfree, Option.not_isNone]
  rw [Bool.eq_iff_iff, List.all_eq_true, Option.isNone_iff_eq_none, Namespace.freeSlot,
    List.find?_eq_none]
  refine forall₂_congr fun j hj => ?_
  rw [hlive j (List.mem_range.1 hj)]
  cases s.slot p j <;> simp

/-- **What strands the world strands the tree.** -/
theorem strands_eq (h : Mirrors w s) {op : Op} (hpre : op.Pre w) :
    op.strands w = s.strands op := by
  have hcreate : ∀ p (q : Qstr), s.holds S_ISDIR p →
      (decide (q.len ≤ YAF_DENTRY_NAME_LEN) && (w.inode? p).any w.needsBlock &&
        !(Mem.clears w.dbit 32768).head?.any fun d => decide (DNO2BID w.sb d < w.nblk)) =
      (decide (q.len ≤ 24) && s.stranded p) := by
    intro p q hp
    have hlive := h.inv.core p hp.1
    obtain ⟨hsize, -⟩ := h.inv.count_le hlive hp.2
    have halign : decide ((s.node p).i_size % YAF_BLOCK_SIZE = 0) =
        decide (s.count p % 128 = 0) := by
      refine decide_eq_decide.2 ?_
      rw [YAF_BLOCK_SIZE_eq]
      omega
    have hcount : (s.node p).i_size / YAF_DENTRY_SIZE = s.count p := rfl
    have hclears : Mem.clears w.dbit 32768 = Mem.clears s.dset 32768 := by
      rw [h.held.clears_dbit, h.dset]
    rw [h.inode? hp.1, Option.any_some, World.needsBlock, hcount, h.all_slotLive hlive hp.2, halign,
      hclears, h.sb, h.nblk, MAX_DENTRYS_eq, YAF_DENTRY_NAME_LEN_eq, Namespace.stranded]
    simp only [Bool.and_assoc]
  cases op with
  | create p q mode => exact hcreate p q (h.holds_iff.1 hpre.1)
  | mkdir p q mode => exact hcreate p q (h.holds_iff.1 hpre.1)
  | _ => rfl

/-- A creation that needs a block panics when there is none. -/
theorem wp_stranded (h : Mirrors w s) {p : ℕ} (hp : s.holds S_ISDIR p) {q : Qstr} {mode : UInt16}
    (hs : (decide (q.len ≤ 24) && s.stranded p) = true) :
    wp (_yaf_create p q mode) (fun _ _ => False) (fun e => e = .panic) w := by
  rw [Bool.and_eq_true, decide_eq_true_eq] at hs
  obtain ⟨hlen, hst⟩ := hs
  have hnone : s.getFree p = none := by
    unfold Namespace.stranded at hst
    rw [Bool.and_eq_true, Bool.and_eq_true, Bool.and_eq_true, Option.isNone_iff_eq_none,
      decide_eq_true_eq, decide_eq_true_eq, Bool.not_eq_true'] at hst
    obtain ⟨⟨⟨hfree, hroom⟩, halign⟩, hdev⟩ := hst
    unfold Namespace.getFree
    rw [hfree]
    dsimp only
    rw [if_neg hroom, if_pos halign]
    cases hc : (Mem.clears s.dset 32768).head? with
    | none => rfl
    | some d =>
        rw [hc, Option.any_some] at hdev
        exact if_neg (of_decide_eq_false hdev)
  rw [_yaf_create, YAF_DENTRY_NAME_LEN_eq, if_neg (Nat.not_lt.2 hlen), wp_bind]
  refine h.wp_get_free h.inv hp (fun j s' w' hg => ?_) (fun _ hno => ?_) fun _ _ => rfl
  · rw [hnone] at hg
    simp at hg
  · rw [hst] at hno
    simp at hno

/-- A creation that finds the first block of the inode bitmap full gives the error code back, and
panics when the device has no block for it. -/
theorem wp_overflowed (h : Mirrors w s) {p : ℕ} (hp : s.holds S_ISDIR p) {q : Qstr} {mode : UInt16}
    (hov : (w.callsInode p q && w.inodesFull) = true) (hdev : w.nblk ≤ IDXI2BID w.sb NO_BIT.toNat) :
    wp (_yaf_create p q mode) (fun _ _ => False) (fun e => e = .panic) w := by
  rw [h.callsInode_eq h.inv hp, inodesFull_eq h.held, h.iset, Bool.and_eq_true, Bool.and_eq_true,
    decide_eq_true_eq, List.isEmpty_iff] at hov
  obtain ⟨⟨hlen, hsome⟩, hfull⟩ := hov
  rw [_yaf_create, YAF_DENTRY_NAME_LEN_eq, if_neg (Nat.not_lt.2 hlen), wp_bind]
  refine h.wp_get_free h.inv hp (fun j s₁ w₁ hg hr => ?_) (fun hg _ => ?_) fun _ _ => rfl
  · have hgives := h.inv.getFree (h.inv.core p hp.1) hp.2 hg
    have hcore := hgives.core hp.1
    have hlive := hgives.inv.core p hcore
    obtain ⟨hsize, hle⟩ := hgives.inv.count_le hlive hgives.dir
    have hlt := hgives.lt
    have hoff : (((32 * j : ℕ) : ℤ) % 2 ^ 64).toNat = 32 * j := by omega
    have hdiv : 32 * j / 4096 = j / 128 := by omega
    have hconsts : w₁.sb = w.sb ∧ w₁.nblk = w.nblk := by
      rw [hr.sb, hr.nblk, Namespace.getFree_same hg, h.sb, h.nblk]
      exact ⟨rfl, rfl⟩
    have hslot := Refines.slotBlk_lt hgives.inv hlive hgives.dir hlt
    rw [Inode.slotBlk, ← hr.sb] at hslot
    -- the first block of the bitmap can be read, and has no clear bit
    have hlayout := hr.held.layout
    have hpos := hlayout.ibp_pos
    have hmin := hlayout.d_min_le
    have hbit : (Mem.clears w₁.ibit 32768).head? = none := by
      rw [hr.held.clears_ibit, hr.iset, hgives.iset, hfull]
      rfl
    have hread : w₁.readable .bitmap (BID_IBP_MIN w₁.sb) = true :=
      w₁.readable_of_ioOk hr.io _ (by rw [BID_IBP_MIN_eq]; omega)
    have hno : w₁.readable .bitmap (IDXI2BID w₁.sb NO_BIT.toNat) = false := by
      rw [hr.readable_eq, ← hr.nblk, hconsts.1, hconsts.2, decide_eq_false_iff_not, Nat.not_lt]
      exact hdev
    rw [hoff, Yaf.wp_linkDentry (hr.inode? hcore) (by omega), hdiv, hr.readable .dentry hslot,
      if_pos rfl, wp_yaf_new_inode_of_none hlayout hread hbit, hno, if_neg (by simp)]
  · rw [hg] at hsome
    exact absurd hsome Bool.false_ne_true

/-- A file is removed that may be open. -/
theorem wp_unlink (h : Mirrors w s) {p ino : ℕ} {q : Qstr} (hpre : (Op.unlink p q ino).Pre w) :
    wp (Yaf.step (.unlink p q ino)) (fun _ _ => True) (fun _ => False) w := by
  obtain ⟨hp, hb, hino⟩ := hpre
  have hp' := h.holds_iff.1 hp
  have hino' := h.holds_iff.1 hino
  rw [h.boundTo_eq h.inv hp'] at hb
  have hfile : s.IsDir ino → ¬(s.node ino).i_nlink > 1 := by
    intro hd
    have hkind := hino'.2
    rw [Bool.not_eq_true'] at hkind
    exact absurd (hd.symm.trans hkind) (by decide)
  rw [Yaf.step, wp_bind, yaf_unlink]
  refine Yaf.wp_remove (h.toRefines.wp_yaf_delete h.inv hp' hb hino'.1 hfile ?_)
  intro j w' _ _ _ _ _ _
  rw [if_pos rfl]
  trivial

/-- A step that finds what it looks for does not panic. -/
theorem not_panic (h : Mirrors w s) {op : Op} (hop : op.Called w) (hst : op.strands w = false)
    (hov : op.overflows w = false) : (Yaf.step op).run w ≠ .error .panic := by
  obtain ⟨hpre, hcall, -⟩ := hop
  -- what the calls of a run leave out does not panic at once
  have hrest : op.overwrites w = false → op.removesOpen w = false → op.starves w = false →
      (Yaf.step op).run w ≠ .error .panic := by
    intro hread hopen hgrant hr
    have hstrands := ((h.step ⟨hpre, hcall, hov, hread, hopen, hgrant⟩).error hr).2 rfl
    rw [← h.strands_eq hpre, hst] at hstrands
    exact Bool.false_ne_true hstrands
  cases op with
  | lookup p q =>
      intro hr
      have hstep : Assertless (Yaf.step (.lookup p q)) :=
        (assertless_yaf_lookup p q).bind fun _ => .pure _
      exact (hstep w).error hr rfl
  | unlink p q ino =>
      intro hr
      exact (h.wp_unlink hpre).error hr
  | write n pos data copied =>
      intro hr
      have hstep : Assertless (Yaf.step (.write n pos data copied)) :=
        (assertless_vfs_write n pos data copied).bind fun _ => .pure _
      exact (hstep w).error hr rfl
  | create | mkdir | rmdir | setSize | openFile | closeFile | writeInode | evict | tick | device =>
      exact hrest rfl rfl rfl

/-- **A step panics exactly when it finds no block for a directory, or no inode number.** -/
theorem panics_iff (h : Mirrors w s) {op : Op} (hop : op.Called w) :
    (Yaf.step op).run w = .error .panic ↔ op.strands w = true ∨ op.overflows w = true := by
  constructor
  · intro hr
    by_contra hno
    rw [not_or, Bool.not_eq_true, Bool.not_eq_true] at hno
    exact h.not_panic hop hno.1 hno.2 hr
  · intro hbad
    obtain ⟨hpre, -, hdev⟩ := hop
    have hwp : wp (Yaf.step op) (fun _ _ => False) (fun e => e = .panic) w := by
      rcases hbad with hs | hov
      · rw [h.strands_eq hpre] at hs
        cases op with
        | create p q mode => exact h.wp_stranded (h.holds_iff.1 hpre.1) hs
        | mkdir p q mode => exact h.wp_stranded (h.holds_iff.1 hpre.1) hs
        | _ => simp [Namespace.strands] at hs
      · cases op with
        | create p q mode => exact h.wp_overflowed (h.holds_iff.1 hpre.1) hov (hdev hov)
        | mkdir p q mode => exact h.wp_overflowed (h.holds_iff.1 hpre.1) hov (hdev hov)
        | _ => simp [Op.overflows] at hov
    cases hr : (Yaf.step op).run w with
    | ok x =>
        obtain ⟨r, w'⟩ := x
        exact (hwp.ok hr).elim
    | error e => rw [hwp.error hr]

/-- A call that a run is made of, and that does not panic. -/
theorem careful_of_sane (h : Mirrors w s) {op : Op} (hop : op.Sane w) {x : Reply × World}
    (hr : (Yaf.step op).run w = .ok x) : op.Careful w := by
  obtain ⟨hcalled, hread, hopen, hgrant⟩ := hop
  refine ⟨hcalled.1, hcalled.2.1, ?_, hread, hopen, hgrant⟩
  by_contra hov
  have hpanic := (h.panics_iff hcalled).2 (.inr (Bool.eq_true_of_not_eq_false hov))
  rw [hr] at hpanic
  cases hpanic

end Mirrors

/-! ### Runs -/

/-- The steps of such a run find what they look for. -/
theorem careful_of_run {v : Volume} (h : v.Ok) {l : List (Op × Reply)}
    (hrun : Run step (fun w op => op.Sane w) (fresh v) l w) :
    Run step (fun w op => op.Careful w) (fresh v) l w := by
  induction hrun with
  | nil => exact .nil
  | snoc _ hop hr ih =>
      obtain ⟨s, hs, -⟩ := exists_written_of_run h ih
      exact ih.snoc (hs.careful_of_sane hop hr) hr

/-- **When a step of a run panics**: in every state of a run on a device of which every block can
be read, in which no lookup reads an inode that was not written back, no open file is removed and no
write finds the first block of the data bitmap full, a step panics exactly when it creates an entry
in a directory that needs a block, and the first clear bit of the data bitmap is that of none, or
when it creates an entry and the first block of the inode bitmap is full. -/
theorem panics_iff_of_run {v : Volume} (h : v.Ok) {l : List (Op × Reply)}
    (hrun : Run step (fun w op => op.Sane w) (fresh v) l w) {op : Op} (hop : op.Called w) :
    (step op).run w = .error .panic ↔ op.strands w = true ∨ op.overflows w = true := by
  obtain ⟨s, hs, -⟩ := exists_written_of_run h (careful_of_run h hrun)
  exact hs.panics_iff hop

/-- An empty directory needs a block for its first entry, and the device has one. -/
theorem panics_small : ∃ l w, Run step (fun w op => op.Sane w) (fresh .small) l w ∧
    Op.Called w (.create 2 (.letters 0) 0) ∧ (w.inode? 2).any w.needsBlock = true ∧
    ((step (.create 2 (.letters 0) 0)).run w = .error .panic ↔
      Op.strands w (.create 2 (.letters 0) 0) = true ∨
        Op.overflows w (.create 2 (.letters 0) 0) = true) := by
  obtain ⟨l, w, hrun, hp⟩ := Volume.exists_run Volume.small_ok (fun w op => op.Sane w)
    [.mkdir 1 (.letters 0) 0, .create 1 (.letters 1) 0, .write 3 4096 [1, 2] 2,
      .unlink 1 (.letters 1) 3]
    (fun _ w => decide (Op.Called w (.create 2 (.letters 0) 0)) &&
      (w.inode? 2).any w.needsBlock) (by decide +kernel)
  rw [Bool.and_eq_true, decide_eq_true_eq] at hp
  exact ⟨l, w, hrun, hp.1, hp.2, panics_iff_of_run Volume.small_ok hrun hp.1⟩

/-- **A full device is not healthy**: eight files take every block of the section and more, and the
first file of a new directory finds the next clear bit to be that of no block. -/
theorem not_healthy_full : ∃ l w, Run step (fun w op => op.Sane w) (fresh .small) l w ∧
    Op.Called w (.create 10 (.letters 0) 0) ∧
    (step (.create 10 (.letters 0) 0)).run w = .error .panic := by
  obtain ⟨l, w, hrun, hp⟩ := Volume.exists_run Volume.small_ok (fun w op => op.Sane w)
    ((List.range 8).map (fun i => .create 1 (.letters i) 0) ++
      ((List.range 8).map (fun i => .write (i + 2) 32767 [1] 1) ++ [.mkdir 1 (.letters 8) 0]))
    (fun _ w => decide (Op.Called w (.create 10 (.letters 0) 0)) &&
      match (step (.create 10 (.letters 0) 0)).run w with
      | .ok _ => false
      | .error e => decide (e = .panic)) (by decide +kernel)
  rw [Bool.and_eq_true, decide_eq_true_eq] at hp
  obtain ⟨hcareful, hp⟩ := hp
  refine ⟨l, w, hrun, hcareful, ?_⟩
  cases hr : (step (.create 10 (.letters 0) 0)).run w with
  | ok x => simp [hr] at hp
  | error e =>
      rw [hr, decide_eq_true_eq] at hp
      rw [hp]

end Yaf
