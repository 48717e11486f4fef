/-
**The buffers of the block device cannot be seen.**

`Yaf.Buffers` has the functions of the driver over buffers that the kernel may write back and drop
between any two accesses.  Here each of them follows its function over `Yaf.World`: it returns the
same and leaves what is shown as that function leaves the world, all references are given up again,
and no change is left in a clean buffer.  The one way to stop that the other function does not have
is in `yaf_get_free_dblock`, whose buffer may be dropped after it was given up and before it is
marked dirty.

Main definitions:

* `Yaf.Coheres` — a buffer cache shows a world;
* `Yaf.Accords` — a function follows another one and gives all its references up;
* `Yaf.Buffered.Rests` — a buffer cache between two operations.

Main results:

* `Yaf.accords_create`, … — **one lemma for each function of the driver**;
* `Yaf.accords_yaf_get_free_dblock` — the search for a data block, and how it may stop;
* `Yaf.follows_yaf_fill_super` — mounting;
* `Yaf.Buffered.Rests.synced_eq` — the device has what is shown after the dirty buffers were written
  back.
-/

import Yaf.Buffers
import Yaf.Lib.Follow

set_option relaxedAutoImplicit false
set_option autoImplicit false

namespace Yaf

open Prog

/-! ### The relation -/

/-- **A buffer cache shows a world**, with references to the buffers of the blocks `held`, and with
changes that are not marked in those of `unsaved`.  The plan drops buffers of the
blocks `K` only. -/
structure Coheres (sb : Yaf_Sb_Info) (K : ℕ → Prop) (held unsaved : List ℕ) (c : Buffered)
    (w : World) : Prop where
  view : c.view = w
  inv : c.store.Inv held unsaved
  sb : w.sb = sb
  plan : ∀ bid, c.store.Drops bid → K bid

/-- Code that leaves the blocks and the counts alone. -/
abbrev Blockless {α : Type} (x : Driver α) : Prop :=
  Within (Same fun w : World => (w.disk, w.sb)) (fun _ => True) x

section Blockless

theorem blockless_modify {f : World → World} (hdisk : ∀ w, (f w).disk = w.disk)
    (hsb : ∀ w, (f w).sb = w.sb) : Blockless (modify f) :=
  .modify fun w => Prod.ext (hdisk w) (hsb w)

theorem blockless_ask (r : Req) : Blockless (ask r) := .bind .get fun _ => .pure _

theorem blockless_sb_bread (site : Site) (bid : ℕ) : Blockless (sb_bread site bid) :=
  .bind .get fun _ => .pure _

theorem blockless_current_time : Blockless current_time := .bind .get fun _ => .pure _

theorem blockless_assert (c : Bool) : Blockless (assert c) := .ite (.pure _) (.throw trivial)

theorem blockless_getInode (ino : ℕ) : Blockless (getInode ino) := by
  refine .bind .get fun w => ?_
  cases w.inode? ino with
  | none => exact .throw trivial
  | some i => exact .pure i

theorem blockless_modifyInode (ino : ℕ) (f : Inode → Inode) : Blockless (modifyInode ino f) :=
  blockless_modify (fun _ => rfl) fun _ => rfl

theorem blockless_mark_inode_dirty (ino : ℕ) : Blockless (mark_inode_dirty ino) :=
  blockless_modify (fun _ => rfl) fun _ => rfl

theorem blockless_unlock_new_inode (ino : ℕ) : Blockless (unlock_new_inode ino) :=
  blockless_modify (fun _ => rfl) fun _ => rfl

theorem blockless_iget_locked (ino : ℕ) : Blockless (iget_locked ino) := by
  refine .bind .get fun w => ?_
  cases w.icache ino with
  | some c => exact .ite (.throw trivial) (.pure _)
  | none =>
      refine .bind (blockless_ask _) fun b => .ite (.bind ?_ fun _ => .pure _) (.pure _)
      exact blockless_modify (fun _ => rfl) fun _ => rfl

theorem blockless_iblock (i : Inode) (k : ℕ) : Blockless (iblock i k) := by
  unfold iblock
  split
  · exact .pure _
  · exact .throw trivial

theorem blockless_setIblock (ino k : ℕ) (dno : UInt32) : Blockless (setIblock ino k dno) := by
  unfold setIblock
  split
  · exact blockless_modifyInode _ _
  · exact .throw trivial

theorem blockless_initInode (dir ino : ℕ) (mode : UInt16) : Blockless (initInode dir ino mode) :=
  .bind .get fun _ => .bind (blockless_getInode _) fun _ => .bind (blockless_modifyInode _ _)
    fun _ => .bind (blockless_modifyInode _ _) fun _ => .bind blockless_current_time fun _ =>
      .bind (blockless_modifyInode _ _) fun _ => .bind (blockless_modifyInode _ _) fun _ =>
        blockless_mark_inode_dirty _

theorem blockless_lookupOut (dir : ℕ) : Blockless (lookupOut dir) :=
  .bind blockless_current_time fun _ => .bind (blockless_modifyInode _ _) fun _ =>
    .bind (blockless_mark_inode_dirty _) fun _ => .pure _

theorem blockless_iput (ino : ℕ) : Blockless (iput ino) := by
  refine .modify fun w => ?_
  cases w.inode? ino with
  | none => rfl
  | some i =>
      dsimp only
      split
      · rfl
      · rfl

end Blockless

/-! ### The accesses -/

section Accesses

open Buffered

variable {own : Halt → Prop} {sb : Yaf_Sb_Info} {K : ℕ → Prop} {held unsaved : List ℕ}
  {c : Buffered} {w : World} {bid : ℕ}

theorem wp_onStore {α : Type} (x : Store.Code ℕ Block α) {Q : α → Buffered → Prop} :
    wp (onStore x) Q own c ↔
      wp x (fun a s => Q a (c.setStore s)) (fun _ => own .dangling) c.store :=
  wp_zoom x

namespace Coheres

/-- The buffers change, and what is shown does not. -/
theorem setStore (h : Coheres sb K held unsaved c w) {held' unsaved' : List ℕ}
    {s : Store ℕ Block} (hinv : s.Inv held' unsaved') (hshown : s.shown = c.store.shown)
    (hdrops : ∀ bid, s.Drops bid → c.store.Drops bid) :
    Coheres sb K held' unsaved' (c.setStore s) w where
  view := by
    rw [← h.view, Buffered.view, Buffered.view, ← hshown]
    rfl
  inv := hinv
  sb := h.sb
  plan bid hd := h.plan bid (hdrops bid hd)

/-- The counts are those of the mount. -/
theorem world_sb (h : Coheres sb K held unsaved c w) : c.world.sb = w.sb := by
  rw [← h.view]
  rfl

/-- What is shown of a block. -/
theorem shown (h : Coheres sb K held unsaved c w) (bid : ℕ) : c.store.shown bid = w.disk bid := by
  rw [← h.view]
  rfl

/-- A block without a buffer is changed on the device. -/
theorem setBlock (h : Coheres sb K held unsaved c w) (hb : c.bufs bid = none) (b : Block) :
    Coheres sb K held unsaved { c with world := c.world.setBlock bid b } (w.setBlock bid b) := by
  obtain rfl := h.view
  obtain ⟨hinv, hshown⟩ := h.inv.setMedium hb b
  exact ⟨congrArg (fun d => ({ c.world with disk := d } : World)) hshown, hinv, h.sb, h.plan⟩

/-- What was changed in a buffer will be written back. -/
theorem wp_mark_buffer_dirty (h : Coheres sb K held [bid] c w) (hb : bid ∈ held) :
    wp (mark_buffer_dirty bid) (fun _ c' => Coheres sb K held [] c' w) own c := by
  rw [mark_buffer_dirty, wp_onStore]
  refine wp_mono (Store.wp_mark h.inv (fun _ hx => absurd hx List.not_mem_nil) hb) ?_
    fun _ he => he
  rintro - s ⟨hinv, hshown, hdrops⟩
  exact h.setStore hinv hshown hdrops

/-- A reference is given up. -/
theorem wp_brelse (h : Coheres sb K (bid :: held) [] c w) :
    wp (brelse bid) (fun _ c' => Coheres sb K held [] c' w) own c := by
  rw [brelse, wp_onStore]
  refine wp_mono (Store.wp_release h.inv fun _ hx => absurd hx List.not_mem_nil) ?_ fun _ he => he
  rintro - s ⟨hinv, hshown, hdrops⟩
  exact h.setStore hinv hshown hdrops

/-- A buffer is marked dirty and given up. -/
theorem wp_mark_brelse (h : Coheres sb K (bid :: held) [bid] c w) :
    wp (mark_buffer_dirty bid >>= fun _ => brelse bid) (fun _ c' => Coheres sb K held [] c' w)
      own c := by
  rw [wp_bind]
  refine wp_mono (h.wp_mark_buffer_dirty List.mem_cons_self) ?_ fun _ he => he
  intro _ c' h'
  exact h'.wp_brelse

/-- A buffer is given up and marked dirty. -/
theorem wp_brelse_mark (h : Coheres sb K (bid :: held) [bid] c w) (hown : K bid → own .dangling) :
    wp (brelse bid >>= fun _ => mark_buffer_dirty bid) (fun _ c' => Coheres sb K held [] c' w)
      own c := by
  have hstore := Store.wp_release_mark (E := fun _ => own .dangling) h.inv
    (fun _ hx => absurd hx List.not_mem_nil) fun hd => hown (h.plan bid hd)
  rw [wp_bind] at hstore
  rw [wp_bind, brelse, wp_onStore]
  refine wp_mono hstore ?_ fun _ he => he
  intro _ s hmark
  rw [mark_buffer_dirty, wp_onStore]
  refine wp_mono hmark ?_ fun _ he => he
  rintro - s' ⟨hinv, hshown, hdrops⟩
  exact h.setStore hinv hshown hdrops

end Coheres

/-! ### Following -/

section Follow

variable {α : Type} {R' : α → Buffered → World → Prop}

/-- Code without accesses to blocks. -/
theorem follows_onView {y : Driver α} (hy : Blockless y) :
    Follows .fault own (Coheres sb K held unsaved) (fun _ => Coheres sb K held unsaved)
      (onView y) y := by
  intro c w h
  obtain rfl := h.view
  rw [onView, wp_zoom]
  refine wp_mono (wp_and (wp_self y c.view) (hy c.view)) ?_ ?_
  · rintro a w' ⟨hr, hsame⟩
    obtain ⟨hdisk, hsb⟩ := Prod.mk.inj hsame
    refine ⟨w', hr, ?_, h.inv, hsb.trans h.sb, h.plan⟩
    change ({ w' with disk := c.view.disk } : World) = w'
    rw [← hdisk]
  · rintro e ⟨hr, -⟩
    exact .inr ⟨e, hr, rfl⟩

/-- An assertion that goes through held. -/
theorem follows_assert (b : Bool) :
    Follows .fault own (Coheres sb K held unsaved)
      (fun _ c w => b = true ∧ Coheres sb K held unsaved c w) (onView (assert b)) (assert b) := by
  cases b with
  | true =>
      refine (follows_onView (blockless_assert true)).conseq (fun _ _ h => h) ?_
      exact fun _ _ _ h => ⟨rfl, h⟩
  | false =>
      intro c w h
      rw [onView, wp_zoom]
      exact .inr ⟨.panic, rfl, rfl⟩

/-- **`sb_bread`**: there is a reference when the buffer could be had. -/
theorem follows_sb_bread (site : Site) (bid : ℕ) :
    Follows .fault own (Coheres sb K held [])
      (fun b => Coheres sb K (if b = true then bid :: held else held) [])
      (Buffered.sb_bread site bid) (sb_bread site bid) := by
  intro c w h
  have hview := h.view
  subst hview
  have hset : c.setView c.view = c := rfl
  rw [Buffered.sb_bread, wp_bind, onView, wp_zoom, wp_sb_bread, hset]
  have hrun : (sb_bread site bid).run c.view = .ok (c.view.readable site bid, c.view) := rfl
  rw [hrun]
  cases c.view.readable site bid with
  | true =>
      rw [if_pos rfl, wp_bind, wp_onStore]
      refine wp_mono (Store.wp_acquire h.inv fun _ hx => absurd hx List.not_mem_nil) ?_
        fun _ he => .inl he
      rintro - s ⟨hinv, hshown, hdrops⟩
      exact ⟨c.view, rfl, h.setStore hinv hshown hdrops⟩
  | false =>
      rw [if_neg Bool.false_ne_true, wp_pure]
      exact ⟨c.view, rfl, h⟩

/-- A buffer is asked for, and something is done if it could be had. -/
theorem follows_ite_sb_bread (site : Site) (bid : ℕ) {f g : Keeper α} {f' g' : Driver α}
    (hf : Follows .fault own (Coheres sb K (bid :: held) []) R' f f')
    (hg : Follows .fault own (Coheres sb K held []) R' g g') :
    Follows .fault own (Coheres sb K held []) R'
      (Buffered.sb_bread site bid >>= fun b => if b = true then f else g)
      (sb_bread site bid >>= fun b => if b = true then f' else g') := by
  refine (follows_sb_bread site bid).bind fun b => ?_
  cases b with
  | true => exact hf
  | false => exact hg

/-- A buffer is asked for, and an assertion says that it could be had. -/
theorem follows_assert_sb_bread (site : Site) (bid : ℕ) {f : Keeper α} {f' : Driver α}
    (hf : Follows .fault own (Coheres sb K (bid :: held) []) R' f f') :
    Follows .fault own (Coheres sb K held []) R'
      (Buffered.sb_bread site bid >>= fun b => onView (assert b) >>= fun _ => f)
      (sb_bread site bid >>= fun b => assert b >>= fun _ => f') := by
  refine (follows_sb_bread site bid).bind fun b => ?_
  refine (follows_assert b).bind fun _ => ?_
  cases b with
  | true => exact hf.conseq (fun _ _ h => h.2) fun _ _ _ h => h
  | false => exact fun c w h => absurd h.1 Bool.false_ne_true

theorem follows_bData (hb : bid ∈ held) :
    Follows .fault own (Coheres sb K held []) (fun _ => Coheres sb K held [])
      (Buffered.bData bid) (bData bid) := by
  intro c w h
  rw [Buffered.bData, wp_onStore]
  refine wp_mono (Store.wp_read h.inv (fun _ hx => absurd hx List.not_mem_nil) hb) ?_ fun _ he =>
    .inl he
  rintro b s ⟨rfl, hinv, hshown, hdrops⟩
  rw [h.shown]
  exact ⟨w, rfl, h.setStore hinv hshown hdrops⟩

theorem follows_modifyBuf (hb : bid ∈ held) (f : Block → Block) :
    Follows .fault own (Coheres sb K held []) (fun _ => Coheres sb K held [bid])
      (Buffered.modifyBuf bid f) (modifyBuf bid f) := by
  intro c w h
  rw [Buffered.modifyBuf, wp_onStore]
  refine wp_mono (Store.wp_write h.inv (fun _ hx => absurd hx List.not_mem_nil) hb f) ?_
    fun _ he => .inl he
  rintro - s ⟨hinv, hshown, hdrops⟩
  refine ⟨w.setBlock bid (f (w.disk bid)), rfl, ?_, hinv, h.sb, ?_⟩
  · rw [← h.view, Buffered.view, Buffered.view]
    change ({ c.world with disk := s.shown } : World) = _
    rw [hshown]
    rfl
  · exact fun x hx => h.plan x (hdrops x hx)

/-- A store that is marked before the buffer is given up. -/
theorem follows_saved (f : Block → Block) {x : Keeper α} {y : Driver α}
    (h : Follows .fault own (Coheres sb K held []) R' x y) :
    Follows .fault own (Coheres sb K (bid :: held) []) R'
      (Buffered.modifyBuf bid f >>= fun _ => mark_buffer_dirty bid >>= fun _ =>
        brelse bid >>= fun _ => x)
      (modifyBuf bid f >>= fun _ => y) := by
  refine (follows_modifyBuf List.mem_cons_self f).bind fun _ => ?_
  refine .quiet (fun _ _ hc => hc.wp_mark_buffer_dirty List.mem_cons_self) fun _ => ?_
  exact .quiet (fun _ _ hc => hc.wp_brelse) fun _ => h

/-- A reference is given up. -/
theorem follows_brelse {x : Keeper α} {y : Driver α}
    (h : Follows .fault own (Coheres sb K held []) R' x y) :
    Follows .fault own (Coheres sb K (bid :: held) []) R' (brelse bid >>= fun _ => x) y :=
  .quiet (fun _ _ hc => hc.wp_brelse) fun _ => h

/-- Both programs look at the counts. -/
theorem follows_sb {f : Buffered → Keeper α} {g : World → Driver α}
    (h : ∀ c w, c.world.sb = sb → w.sb = sb →
      Follows .fault own (Coheres sb K held unsaved) R' (f c) (g w)) :
    Follows .fault own (Coheres sb K held unsaved) R' (get >>= f) (get >>= g) := by
  refine .get fun c w hc => ?_
  exact h c w (hc.world_sb.trans hc.sb) hc.sb

end Follow

end Accesses

/-! ### The functions of the driver -/

section Driver

open Buffered

variable {own : Halt → Prop} {sb : Yaf_Sb_Info} {K : ℕ → Prop} {held : List ℕ}

/-- **A function follows another one**, and gives all its references up. -/
abbrev Accords {α : Type} (own : Halt → Prop) (sb : Yaf_Sb_Info) (K : ℕ → Prop) (held : List ℕ)
    (x : Keeper α) (y : Driver α) : Prop :=
  Follows .fault own (Coheres sb K held []) (fun _ => Coheres sb K held []) x y

theorem accords_pure {α : Type} (a : α) : Accords own sb K held (pure a) (pure a) :=
  .pure a fun _ _ h => h

theorem accords_onView {α : Type} {y : Driver α} (hy : Blockless y) :
    Accords own sb K held (onView y) y := follows_onView hy

/-- An inode is changed with the time of the clock, and marked dirty. -/
theorem accords_stamp {α : Type} (ino : ℕ) {f g : ℤ → Inode → Inode} {x : Keeper α}
    {y : Driver α} (h : Accords own sb K held x y) :
    Accords own sb K held
      (onView current_time >>= fun cur => onView (modifyInode ino (f cur)) >>= fun _ =>
        onView (modifyInode ino (g cur)) >>= fun _ => onView (mark_inode_dirty ino) >>= fun _ => x)
      (current_time >>= fun cur => modifyInode ino (f cur) >>= fun _ =>
        modifyInode ino (g cur) >>= fun _ => mark_inode_dirty ino >>= fun _ => y) := by
  refine (accords_onView blockless_current_time).bind fun cur => ?_
  refine (accords_onView (blockless_modifyInode _ _)).bind fun _ => ?_
  refine (accords_onView (blockless_modifyInode _ _)).bind fun _ => ?_
  exact (accords_onView (blockless_mark_inode_dirty _)).bind fun _ => h

/-! The bitmaps. -/

theorem follows_yaf_put_bit (bid nr : ℕ) :
    Follows .fault own (Coheres sb K (bid :: held) []) (fun _ => Coheres sb K (bid :: held) [bid])
      (Buffered.yaf_put_bit bid nr) (yaf_put_bit bid nr) := by
  refine (follows_bData List.mem_cons_self).bind fun b => ?_
  refine (follows_modifyBuf List.mem_cons_self _).bind fun _ => ?_
  exact follows_onView (blockless_assert _)

theorem accords_putIdx (bid idx : ℕ) :
    Accords own sb K held (Buffered.putIdx bid idx) (putIdx bid idx) := by
  refine follows_assert_sb_bread .bitmap bid ?_
  refine (follows_yaf_put_bit bid _).after fun _ c w h => ?_
  exact wp_mono h.wp_mark_brelse (fun _ _ h' => ⟨rfl, h'⟩) fun _ he => he

/-- The search of a section, which ends with the first block. -/
theorem accords_getFreeIdx (min : ℕ) (noRead full : UInt32) {finish : ℕ → Keeper Unit} {bid : ℕ}
    (hfinish : ∀ c w, Coheres sb K (bid :: held) [bid] c w →
      wp (finish bid) (fun _ c' => Coheres sb K held [] c' w) own c) (rem : ℕ) :
    Accords own sb K held (Buffered.getFreeIdx min noRead full finish rem bid)
      (getFreeIdx min noRead full rem bid) := by
  cases rem with
  | zero => exact accords_pure _
  | succ rem =>
      have hres : ∀ r : UInt32, r ≥ 0 := fun _ => UInt32.zero_le
      refine follows_ite_sb_bread .bitmap bid ?_ (accords_pure _)
      refine (follows_bData List.mem_cons_self).bind fun b => ?_
      refine (follows_modifyBuf List.mem_cons_self _).bind fun _ => ?_
      rw [if_pos (hres _), if_pos (hres _)]
      exact .quiet hfinish fun _ => accords_pure _

theorem accords_yaf_get_free_inode :
    Accords own sb K held Buffered.yaf_get_free_inode yaf_get_free_inode := by
  refine follows_sb fun c w hc hw => ?_
  simp only [hc, hw]
  exact accords_getFreeIdx _ _ _ (fun _ _ h => h.wp_mark_brelse) _

theorem accords_yaf_put_inode (ino : ℕ) :
    Accords own sb K held (Buffered.yaf_put_inode ino) (yaf_put_inode ino) := by
  refine follows_sb fun c w hc hw => ?_
  simp only [hc, hw]
  exact accords_putIdx _ _

/-- **The search for a data block** may stop where its buffer was dropped too early. -/
theorem accords_yaf_get_free_dblock (hown : K (BID_DBP_MIN sb) → own .dangling) :
    Accords own sb K held Buffered.yaf_get_free_dblock yaf_get_free_dblock := by
  refine follows_sb fun c w hc hw => ?_
  simp only [hc, hw]
  exact accords_getFreeIdx _ _ _ (fun _ _ h => h.wp_brelse_mark hown) _

theorem accords_yaf_put_dblock (dno : UInt32) :
    Accords own sb K held (Buffered.yaf_put_dblock dno) (yaf_put_dblock dno) := by
  refine follows_sb fun c w hc hw => ?_
  simp only [hc, hw]
  exact accords_putIdx _ _

/-! Inodes. -/

theorem accords_yaf_iget (ino : ℕ) :
    Accords own sb K held (Buffered.yaf_iget ino) (yaf_iget ino) := by
  refine follows_sb fun c w hc hw => ?_
  simp only [hc, hw]
  refine .ite (fun _ => accords_pure _) fun _ => ?_
  refine (accords_onView (blockless_iget_locked ino)).bind fun b => ?_
  refine .ite (fun _ => ?_) fun _ => accords_pure _
  refine follows_ite_sb_bread .inode _ ?_ (accords_pure _)
  refine (follows_bData List.mem_cons_self).bind fun b => ?_
  refine (follows_onView (blockless_modifyInode _ _)).bind fun _ => ?_
  refine (follows_onView (blockless_unlock_new_inode _)).bind fun _ => ?_
  exact follows_brelse (accords_pure _)

theorem accords_yaf_write_inode (ino : ℕ) :
    Accords own sb K held (Buffered.yaf_write_inode ino) (yaf_write_inode ino) := by
  refine follows_sb fun c w hc hw => ?_
  simp only [hc, hw]
  refine (accords_onView (blockless_getInode ino)).bind fun i => ?_
  exact follows_ite_sb_bread .inode _ (follows_saved _ (accords_pure _)) (accords_pure _)

theorem accords_yaf_new_inode (dir : ℕ) (mode : UInt16) :
    Accords own sb K held (Buffered.yaf_new_inode dir mode) (yaf_new_inode dir mode) := by
  refine accords_yaf_get_free_inode.bind fun ino => ?_
  refine .ite (fun _ => accords_pure _) fun _ => ?_
  refine (accords_yaf_iget _).bind fun ret => ?_
  refine .ite (fun _ => ?_) fun _ => ?_
  · exact (accords_yaf_put_inode _).bind fun _ => accords_pure _
  · exact (accords_onView (blockless_initInode _ _ _)).bind fun _ => accords_pure _

/-! Directories. -/

theorem accords_scanDir (hit : Block → ℕ → Bool) (dir : Inode) (rem doff : ℕ) :
    Accords own sb K held (Buffered.scanDir hit dir rem doff) (scanDir hit dir rem doff) := by
  induction rem generalizing doff with
  | zero => exact .ite (fun _ => .throw _) fun _ => accords_pure _
  | succ rem ih =>
      refine .ite (fun _ => ?_) fun _ => accords_pure _
      refine follows_sb fun c w hc hw => ?_
      simp only [hc, hw]
      refine (accords_onView (blockless_iblock _ _)).bind fun dno => ?_
      refine follows_ite_sb_bread .scan _ ?_ (accords_pure _)
      refine (follows_bData List.mem_cons_self).bind fun b => follows_brelse ?_
      cases scanSlots hit dir.i_size b DENTRYS_PER_BLOCK 0 doff with
      | inl doff => exact accords_pure _
      | inr doff => exact ih doff

/-- The block of a directory or a file that `i_block` names. -/
theorem accords_iblock {α : Type} (ino k : ℕ) {f : UInt32 → Keeper α} {g : UInt32 → Driver α}
    (h : ∀ dno, Accords own sb K held (f dno) (g dno)) :
    Accords own sb K held (onView (getInode ino) >>= fun i => onView (iblock i k) >>= f)
      (getInode ino >>= fun i => iblock i k >>= g) := by
  refine (accords_onView (blockless_getInode ino)).bind fun i => ?_
  exact (accords_onView (blockless_iblock i k)).bind h

theorem accords_attachDentryBlock (hown : K (BID_DBP_MIN sb) → own .dangling) (dir doff : ℕ) :
    Accords own sb K held (Buffered.attachDentryBlock dir doff) (attachDentryBlock dir doff) := by
  refine (accords_yaf_get_free_dblock hown).bind fun dno => ?_
  refine .ite (fun _ => accords_pure _) fun _ => accords_iblock _ _ fun old => ?_
  refine (accords_onView (blockless_assert _)).bind fun _ => ?_
  exact (accords_onView (blockless_setIblock _ _ _)).bind fun _ => accords_pure _

theorem accords_appendDentry (dir doff : ℕ) :
    Accords own sb K held (Buffered.appendDentry dir doff) (appendDentry dir doff) := by
  refine follows_sb fun c w hc hw => ?_
  simp only [hc, hw]
  refine accords_iblock _ _ fun dno => ?_
  refine follows_assert_sb_bread .dentry _ (follows_saved _ ?_)
  refine (accords_onView (blockless_modifyInode _ _)).bind fun _ => ?_
  refine (accords_onView blockless_current_time).bind fun cur => ?_
  refine (accords_onView (blockless_modifyInode _ _)).bind fun _ => ?_
  exact (accords_onView (blockless_mark_inode_dirty _)).bind fun _ => accords_pure _

theorem accords_yaf_get_free_dentry (hown : K (BID_DBP_MIN sb) → own .dangling) (dir : ℕ) :
    Accords own sb K held (Buffered.yaf_get_free_dentry dir) (yaf_get_free_dentry dir) := by
  refine (accords_onView (blockless_getInode dir)).bind fun di => ?_
  refine (accords_scanDir isFree di _ _).bind fun r => ?_
  cases r with
  | noRead => exact accords_pure _
  | found doff => exact accords_pure _
  | done doff =>
      refine .ite (fun _ => accords_pure _) fun _ => .ite (fun _ => ?_) fun _ => ?_
      · refine (accords_attachDentryBlock hown dir doff).bind fun b => ?_
        exact .ite (fun _ => accords_appendDentry dir doff) fun _ => accords_pure _
      · exact accords_appendDentry dir doff

theorem accords_lookup (dir : ℕ) (q : Qstr) :
    Accords own sb K held (Buffered._yaf_lookup dir q) (_yaf_lookup dir q) := by
  refine .ite (fun _ => accords_pure _) fun _ => ?_
  refine (accords_onView (blockless_getInode dir)).bind fun di => ?_
  refine (accords_scanDir (isNamed q) di _ _).bind fun r => ?_
  cases r with
  | noRead => exact accords_pure _
  | found doff => exact accords_pure _
  | done doff => exact accords_pure _

theorem accords_linkDentry (dir : ℕ) (q : Qstr) (mode : UInt16) (doff : ℕ) :
    Accords own sb K held (Buffered.linkDentry dir q mode doff) (linkDentry dir q mode doff) := by
  refine follows_sb fun c w hc hw => ?_
  simp only [hc, hw]
  refine accords_iblock _ _ fun dno => ?_
  refine follows_ite_sb_bread .dentry _ ?_ (accords_pure _)
  -- the buffer of the slot is held while the inode is made
  refine (accords_yaf_new_inode dir mode).bind fun r => ?_
  cases r with
  | error e => exact follows_brelse (accords_pure _)
  | ok ino =>
      exact follows_saved _ (accords_stamp dir (accords_pure _))

theorem accords_create (hown : K (BID_DBP_MIN sb) → own .dangling) (dir : ℕ) (q : Qstr)
    (mode : UInt16) :
    Accords own sb K held (Buffered._yaf_create dir q mode) (_yaf_create dir q mode) := by
  refine .ite (fun _ => accords_pure _) fun _ => ?_
  exact (accords_yaf_get_free_dentry hown dir).bind fun doff => accords_linkDentry _ _ _ _

theorem accords_yaf_lookup (dir : ℕ) (q : Qstr) :
    Accords own sb K held (Buffered.yaf_lookup dir q) (yaf_lookup dir q) := by
  refine (accords_lookup dir q).bind fun doff => ?_
  refine .ite (fun _ => ?_) fun _ => ?_
  · exact .ite (fun _ => accords_onView (blockless_lookupOut _)) fun _ => accords_pure _
  · refine follows_sb fun c w hc hw => ?_
    simp only [hc, hw]
    refine accords_iblock _ _ fun dno => ?_
    refine follows_ite_sb_bread .dentry _ ?_ (accords_pure _)
    refine (follows_bData List.mem_cons_self).bind fun b => ?_
    refine (accords_yaf_iget _).bind fun ret => follows_brelse ?_
    exact .ite (fun _ => accords_pure _) fun _ => accords_onView (blockless_lookupOut _)

theorem accords_putBlocks (inode : Inode) (rem k : ℕ) :
    Accords own sb K held (Buffered.putBlocks inode rem k) (putBlocks inode rem k) := by
  induction rem generalizing k with
  | zero => exact .ite (fun _ => .throw _) fun _ => accords_pure _
  | succ rem ih =>
      refine .ite (fun _ => ?_) fun _ => accords_pure _
      refine (accords_onView (blockless_iblock _ _)).bind fun dno => ?_
      exact (accords_yaf_put_dblock dno).bind fun _ => ih (k + 1)

theorem accords_unlinkDentry (dir ino doff : ℕ) :
    Accords own sb K held (Buffered.unlinkDentry dir ino doff) (unlinkDentry dir ino doff) := by
  refine follows_sb fun c w hc hw => ?_
  simp only [hc, hw]
  refine accords_iblock _ _ fun dno => ?_
  refine follows_ite_sb_bread .dentry _ (follows_saved _ (accords_stamp dir ?_)) (accords_pure _)
  refine (accords_onView (blockless_modifyInode _ _)).bind fun _ => ?_
  refine (accords_onView (blockless_getInode _)).bind fun i => ?_
  refine .ite (fun _ => ?_) fun _ => ?_
  · exact (accords_onView (blockless_mark_inode_dirty _)).bind fun _ => accords_pure _
  · refine (accords_putBlocks i _ _).bind fun _ => (accords_yaf_put_inode ino).bind fun _ => ?_
    exact (accords_onView (blockless_mark_inode_dirty _)).bind fun _ => accords_pure _

theorem accords_yaf_delete (dir : ℕ) (q : Qstr) (ino : ℕ) :
    Accords own sb K held (Buffered.yaf_delete dir q ino) (yaf_delete dir q ino) := by
  refine (accords_lookup dir q).bind fun doff => ?_
  exact (accords_onView (blockless_assert _)).bind fun _ => accords_unlinkDentry _ _ _

theorem accords_yaf_rmdir (dir : ℕ) (q : Qstr) (ino : ℕ) :
    Accords own sb K held (Buffered.yaf_rmdir dir q ino) (yaf_rmdir dir q ino) := by
  refine (accords_onView (blockless_getInode ino)).bind fun i => ?_
  exact .ite (fun _ => accords_pure _) fun _ => accords_yaf_delete dir q ino

theorem accords_iterDir (dir : Inode) (rem doff : ℕ) (ctx : DirContext) :
    Accords own sb K held (Buffered.iterDir dir rem doff ctx) (iterDir dir rem doff ctx) := by
  induction rem generalizing doff ctx with
  | zero => exact .ite (fun _ => .throw _) fun _ => accords_pure _
  | succ rem ih =>
      refine .ite (fun _ => ?_) fun _ => accords_pure _
      refine follows_sb fun c w hc hw => ?_
      simp only [hc, hw]
      refine (accords_onView (blockless_iblock _ _)).bind fun dno => ?_
      refine follows_ite_sb_bread .scan _ ?_ (accords_pure _)
      refine (follows_bData List.mem_cons_self).bind fun b => follows_brelse ?_
      exact ih _ _

/-- **Listing a directory.** -/
theorem accords_yaf_iterate_shared (dir parent : ℕ) (ctx : DirContext) :
    Accords own sb K held (Buffered.yaf_iterate_shared dir parent ctx)
      (yaf_iterate_shared dir parent ctx) := by
  refine (accords_onView (blockless_getInode dir)).bind fun di => ?_
  refine .ite (fun _ => ?_) fun _ => accords_pure _
  cases dir_emit_dots ctx dir parent with
  | mk b ctx =>
      cases b with
      | false => exact accords_pure _
      | true =>
          refine .ite (fun _ => accords_pure _) fun _ => ?_
          refine (accords_iterDir di _ _ _).bind fun r => ?_
          obtain ⟨doff, ctx⟩ := r
          cases doff with
          | none => exact accords_pure _
          | some doff => exact accords_pure _

/-! Files. -/

theorem accords_allocBlocks (hown : K (BID_DBP_MIN sb) → own .dangling) (ino rem dbnr : ℕ) :
    Accords own sb K held (Buffered.allocBlocks ino rem dbnr) (allocBlocks ino rem dbnr) := by
  induction rem generalizing dbnr with
  | zero => exact accords_pure _
  | succ rem ih =>
      refine (accords_yaf_get_free_dblock hown).bind fun dno => .ite (fun _ => ?_) fun _ => ?_
      · exact (accords_onView (blockless_mark_inode_dirty _)).bind fun _ => accords_pure _
      · exact (accords_onView (blockless_setIblock _ _ _)).bind fun _ => ih (dbnr + 1)

theorem accords_yaf_get_block {create : Bool}
    (hown : create = true → K (BID_DBP_MIN sb) → own .dangling) (ino iblk : ℕ) :
    Accords own sb K held (Buffered.yaf_get_block ino iblk create)
      (yaf_get_block ino iblk create) := by
  refine follows_sb fun c w hc hw => ?_
  simp only [hc, hw]
  refine .ite (fun _ => accords_pure _) fun _ => ?_
  refine (accords_onView (blockless_getInode ino)).bind fun i => ?_
  refine .ite (fun _ => .ite (fun hcreate => ?_) fun _ => accords_pure _) fun _ => ?_
  · refine (accords_allocBlocks (hown hcreate) _ _ _).bind fun b => ?_
    refine .ite (fun _ => ?_) fun _ => accords_pure _
    refine (accords_onView (blockless_mark_inode_dirty _)).bind fun _ => ?_
    exact accords_iblock _ _ fun dno => accords_pure _
  · exact accords_iblock _ _ fun dno => accords_pure _

/-! The callers of the driver. -/

theorem accords_remove {x : Keeper ℤ} {y : Driver ℤ} (h : Accords own sb K held x y) (ino : ℕ) :
    Accords own sb K held (Buffered.remove x ino) (remove y ino) := by
  refine h.bind fun ret => ?_
  dsimp only
  refine .ite (fun _ => ?_) fun _ => accords_pure _
  exact (accords_onView (blockless_iput ino)).bind fun _ => accords_pure _

theorem accords_writeback (ino : ℕ) :
    Accords own sb K held (Buffered.writeback ino) (writeback ino) := by
  refine (accords_onView ?_).bind fun _ => accords_yaf_write_inode ino
  exact blockless_modify (fun _ => rfl) fun _ => rfl

end Driver

/-! ### Mounting -/

/-- **A buffer cache at rest**: it shows the world, nobody refers to a buffer, and a clean buffer
has what is on the device. -/
structure Buffered.Rests (c : Buffered) (w : World) : Prop where
  view : c.view = w
  released : c.Released
  clean : ∀ bid b, c.bufs bid = some b → b.dirty = false → b.data = c.world.disk bid

section Rests

variable {own : Halt → Prop} {sb : Yaf_Sb_Info} {K : ℕ → Prop} {c : Buffered} {w : World}

/-- Nothing is referred to, and nothing is unsaved. -/
theorem Coheres.rests (h : Coheres sb K [] [] c w) : c.Rests w where
  view := h.view
  released := h.inv.refs
  clean bid b hb hd := h.inv.clean bid b hb hd List.not_mem_nil

namespace Buffered.Rests

theorem coheres (h : c.Rests w) (hsb : w.sb = sb) (hK : ∀ bid, c.store.Drops bid → K bid) :
    Coheres sb K [] [] c w where
  view := h.view
  inv := ⟨h.released, fun _ ha => absurd ha List.not_mem_nil,
    fun bid b hb hd _ => h.clean bid b hb hd⟩
  sb := hsb
  plan := hK

/-- Writing the dirty buffers back brings the device to what is shown. -/
theorem synced_eq (h : c.Rests w) : c.synced = w.disk := by
  have hc : Coheres w.sb (fun _ => True) [] [] c w := h.coheres rfl fun _ _ => trivial
  funext bid
  rw [synced, hc.inv.settled, hc.shown]

/-- A device without buffers. -/
theorem device (w : World) (plan : List (List (Store.Act ℕ))) :
    (Buffered.device w plan).Rests w where
  view := rfl
  released _ _ hb := absurd hb.symm (Option.some_ne_none _)
  clean _ _ hb := absurd hb.symm (Option.some_ne_none _)

end Buffered.Rests

/-- The counts of the mount are set. -/
theorem follows_set_sb (sb' : Yaf_Sb_Info) {held unsaved : List ℕ} :
    Follows .fault own (Coheres sb K held unsaved) (fun _ => Coheres sb' K held unsaved)
      (Buffered.onView (modify fun w => { w with sb := sb' }))
      (modify fun w => { w with sb := sb' }) := by
  intro c w h
  obtain rfl := h.view
  exact ⟨_, rfl, rfl, h.inv, rfl, h.plan⟩

/-- **Mounting** follows the mount on single copies. -/
theorem follows_yaf_fill_super :
    Follows .fault own (Coheres sb K [] []) (fun _ c w => Coheres w.sb K [] [] c w)
      Buffered.yaf_fill_super yaf_fill_super := by
  have hpure : ∀ sb' held (r : ℤ), Follows .fault own (Coheres sb' K held [])
      (fun _ c w => Coheres w.sb K held [] c w) (pure r) (pure r) := by
    intro sb' held r
    refine .pure r fun c w h => ?_
    rw [h.sb]
    exact h
  rw [Buffered.yaf_fill_super, yaf_fill_super]
  refine follows_ite_sb_bread .superblock 0 ?_ (hpure _ _ _)
  refine (follows_bData List.mem_cons_self).bind fun b => ?_
  refine Follows.after (S := fun _ c w => Coheres w.sb K [0] [] c w) ?_ ?_
  · rw [Buffered.fillSuper]
    generalize magicOk b = magic
    refine .ite (fun _ => ?_) fun _ => hpure _ _ _
    refine (accords_onView (blockless_ask _)).bind fun granted => ?_
    refine .ite (fun _ => ?_) fun _ => hpure _ _ _
    refine (follows_set_sb _).bind fun _ => ?_
    refine (accords_yaf_iget ROOT_INO).bind fun ret => ?_
    refine .ite (fun _ => hpure _ _ _) fun _ => ?_
    refine (accords_onView (blockless_ask _)).bind fun made => ?_
    exact .ite (fun _ => hpure _ _ _) fun _ => hpure _ _ _
  · intro ret c w h
    rw [wp_bind]
    exact wp_mono h.wp_brelse (fun _ _ h' => ⟨rfl, h'⟩) fun _ he => he

/-- A fresh volume can be mounted, whatever the kernel does with the buffers. -/
theorem Volume.exists_mount {v : Volume} (h : v.Ok) (plan : List (List (Store.Act ℕ)))
    (hK : ∀ bid, (Buffered.device v.device plan).store.Drops bid → K bid) :
    ∃ c, Buffered.yaf_fill_super.run (Buffered.device v.device plan) = .ok (0, c) ∧
      Coheres (fresh v).sb K [] [] c (fresh v) := by
  have hmount : wp yaf_fill_super (fun r w => r = 0 ∧ w = v.mounted) (fun _ => False) v.device :=
    wp_yaf_fill_super h le_rfl
  obtain ⟨r, w, hr, rfl, rfl⟩ := hmount.exists_ok
  have hfollow : Follows .fault (fun _ => False) (Coheres v.device.sb K [] [])
      (fun _ c w => Coheres w.sb K [] [] c w) Buffered.yaf_fill_super yaf_fill_super :=
    follows_yaf_fill_super
  have hwp := hfollow _ _ ((Buffered.Rests.device v.device plan).coheres rfl hK)
  have hret : wp Buffered.yaf_fill_super
      (fun r c => r = 0 ∧ Coheres (fresh v).sb K [] [] c (fresh v)) (fun _ => False)
      (Buffered.device v.device plan) := by
    refine wp_mono hwp ?_ ?_
    · rintro a c ⟨w, hr', hc⟩
      obtain ⟨rfl, rfl⟩ := Prod.mk.inj (Except.ok.inj (hr.symm.trans hr'))
      rw [fresh_eq h]
      exact ⟨rfl, hc⟩
    · rintro e (he | ⟨e', hr', -⟩)
      · exact he
      · rw [hr] at hr'
        simp at hr'
  obtain ⟨r, c, hr', rfl, hc⟩ := hret.exists_ok
  exact ⟨c, hr', hc⟩

end Rests

end Yaf
