/-
**The caches cannot be seen until two copies of a block meet.**

`Yaf.Caches` has files in pages and everything else in buffers of the block device, both over one
device.  Here each function of it follows its function of `Yaf.Pages`, where a block has one copy
besides the pages: it returns the same and leaves what is shown as that function leaves it.  It may
stop on its own in two places: where a page is transferred to or from a block that has a buffer, and
in `yaf_get_free_dblock`, whose buffer may be dropped before it is marked dirty.  The buffer that a
page meets was there before, for what transfers pages makes no buffers but that of the first block
of the data bitmap.

Main definitions:

* `Yaf.Buffered.Bounded` — only some blocks have buffers;
* `Yaf.Cached.Reveals` — both caches show a mount with pages;
* `Yaf.Tallies` — a function follows another one;
* `Yaf.Cached.Rests` — the caches between two operations;
* `Yaf.Cached.Clashes` — the ways to stop that a mount with single copies does not have.

Main results:

* `Yaf.maintains_yaf_get_block` — which buffers are made when a block of a file is looked up;
* `Yaf.follows_step` — whatever happens follows what happens on single copies;
* `Yaf.coherent_of_run` — **a run has the results of a run on single copies**;
* `Yaf.undisturbed_of_run` — **every run on single copies is a run with both caches**, until two
  copies of a block meet.
-/

import Yaf.Caches
import Yaf.Coherence

set_option relaxedAutoImplicit false
set_option autoImplicit false

namespace Yaf

open Prog

/-! ### Where buffers are made -/

/-- Only the blocks `B` have buffers, in a mount with the counts `sb`. -/
structure Buffered.Bounded (sb : Yaf_Sb_Info) (B : ℕ → Prop) (c : Buffered) : Prop where
  sb : c.world.sb = sb
  store : c.store.Bounded B

section Bounded

open Buffered

variable {α : Type} {sb : Yaf_Sb_Info} {B : ℕ → Prop} {bid : ℕ}

theorem Buffered.Bounded.wp {c : Buffered} (h : c.Bounded sb B) {x : Keeper α}
    (hx : Maintains (Bounded sb B) x) : wp x (fun _ c => c.store.Bounded B) (fun _ => True) c :=
  wp_mono (hx c) (fun _ _ hkeep => (hkeep h).store) fun _ h => h

theorem maintains_onStore {x : Store.Code ℕ Block α} (hx : Maintains (Store.Bounded B) x) :
    Maintains (Bounded sb B) (onStore x) := by
  intro c
  rw [wp_onStore]
  exact wp_mono (hx c.store) (fun _ _ hs h => ⟨h.sb, hs h.store⟩) fun _ _ => trivial

theorem maintains_onView {y : Driver α} (hy : Blockless y) :
    Maintains (Bounded sb B) (onView y) := by
  intro c
  rw [onView, wp_zoom]
  refine wp_mono (hy c.view) (fun _ w hsame h => ⟨?_, h.store⟩) fun _ _ => trivial
  exact (Prod.mk.inj hsame).2.trans h.sb

/-- A program that looks at the counts. -/
theorem maintains_sb {f : Buffered → Keeper α}
    (hf : ∀ c, c.world.sb = sb → Maintains (Bounded sb B) (f c)) :
    Maintains (Bounded sb B) (get >>= f) := by
  intro c
  rw [wp_bind, wp_get]
  by_cases hc : c.world.sb = sb
  · exact hf c hc c
  · exact wp_mono (wp_self (f c) c) (fun _ _ _ h => absurd h.sb hc) fun _ _ => trivial

/-- The search of a section ends with the first block, which gets a buffer. -/
theorem maintains_getFreeIdx (hbid : B bid) (min : ℕ) (noRead full : UInt32)
    {finish : ℕ → Keeper Unit} (hfinish : Maintains (Bounded sb B) (finish bid)) (rem : ℕ) :
    Maintains (Bounded sb B) (Buffered.getFreeIdx min noRead full finish rem bid) := by
  cases rem with
  | zero => exact .pure _
  | succ rem =>
      have hres : ∀ r : UInt32, r ≥ 0 := fun _ => UInt32.zero_le
      have hread : Maintains (Bounded sb B) (Buffered.sb_bread .bitmap bid) := by
        refine .bind (maintains_onView (blockless_sb_bread _ _)) fun b => .ite ?_ (.pure _)
        exact .bind (maintains_onStore (Store.maintains_acquire hbid)) fun _ => .pure _
      refine .bind hread fun b => .ite ?_ (.pure _)
      refine .bind (maintains_onStore (Store.maintains_read bid)) fun b => ?_
      refine .bind (maintains_onStore (Store.maintains_write hbid _)) fun _ => ?_
      rw [if_pos (hres _)]
      exact .bind hfinish fun _ => .pure _

theorem maintains_yaf_get_free_dblock (hmin : B (BID_DBP_MIN sb)) :
    Maintains (Bounded sb B) Buffered.yaf_get_free_dblock := by
  refine maintains_sb fun c hc => ?_
  simp only [hc]
  refine maintains_getFreeIdx hmin _ _ _ ?_ _
  exact .bind (maintains_onStore (Store.maintains_release hmin)) fun _ =>
    maintains_onStore (Store.maintains_mark hmin)

theorem maintains_allocBlocks (hmin : B (BID_DBP_MIN sb)) (ino rem dbnr : ℕ) :
    Maintains (Bounded sb B) (Buffered.allocBlocks ino rem dbnr) := by
  induction rem generalizing dbnr with
  | zero => exact .pure _
  | succ rem ih =>
      refine .bind (maintains_yaf_get_free_dblock hmin) fun dno => .ite ?_ ?_
      · exact .bind (maintains_onView (blockless_mark_inode_dirty _)) fun _ => .pure _
      · exact .bind (maintains_onView (blockless_setIblock _ _ _)) fun _ => ih (dbnr + 1)

/-- **Looking a block of a file up makes no buffers**, and giving the file blocks makes none but
that of the first block of the bitmap. -/
theorem maintains_yaf_get_block {create : Bool} (hmin : create = true → B (BID_DBP_MIN sb))
    (ino iblk : ℕ) : Maintains (Bounded sb B) (Buffered.yaf_get_block ino iblk create) := by
  have hblock : ∀ sb', Maintains (Bounded sb B) (do
      pure ((0 : ℤ), some (DNO2BID sb'
        (← Buffered.onView (iblock (← Buffered.onView (getInode ino)) iblk)).toNat))) := fun sb' =>
    .bind (maintains_onView (blockless_getInode ino)) fun _ =>
      .bind (maintains_onView (blockless_iblock _ _)) fun _ => .pure _
  refine .bind .get fun c => .ite (.pure _) ?_
  refine .bind (maintains_onView (blockless_getInode ino)) fun i => .ite ?_ (hblock _)
  cases create with
  | false => exact .pure _
  | true =>
      refine .bind (maintains_allocBlocks (hmin rfl) _ _ _) fun b => .ite ?_ (.pure _)
      exact .bind (maintains_onView (blockless_mark_inode_dirty _)) fun _ => hblock _

end Bounded

/-! ### The relation -/

/-- **Both caches show a mount with pages.**  The plan drops buffers of the blocks `K` only, and
only the blocks `B` have buffers. -/
structure Cached.Reveals (sb : Yaf_Sb_Info) (K B : ℕ → Prop) (c : Cached) (p : Paged) : Prop where
  buffered : Coheres sb K [] [] c.buffered p.world
  bounded : c.buffered.store.Bounded B
  pages : c.pages = p.pages

/-- **A function follows another one** on what is shown. -/
abbrev Tallies {α : Type} (own : Stop → Prop) (sb : Yaf_Sb_Info) (K B : ℕ → Prop) (x : Cacher α)
    (y : Pager α) : Prop :=
  Follows .oops own (Cached.Reveals sb K B) (fun _ => Cached.Reveals sb K B) x y

section Rules

variable {α : Type} {own : Stop → Prop} {sb : Yaf_Sb_Info} {K B : ℕ → Prop}

namespace Cached.Reveals

variable {c : Cached} {p : Paged}

/-- More blocks may have buffers. -/
theorem mono {B' : ℕ → Prop} (h : Reveals sb K B c p) (hB : ∀ bid, B bid → B' bid) :
    Reveals sb K B' c p := ⟨h.buffered, fun bid hb => hB bid (h.bounded bid hb), h.pages⟩

theorem view_eq (h : Reveals sb K B c p) : c.view = p := by
  rw [Cached.view, h.buffered.view, h.pages]

theorem sb_eq (h : Reveals sb K B c p) : c.buffered.world.sb = sb :=
  h.buffered.world_sb.trans h.buffered.sb

theorem grab_eq (h : Reveals sb K B c p) (ino idx : ℕ) : c.grab ino idx = p.grab ino idx := by
  rw [Cached.grab, Paged.grab, h.pages]

theorem icache_eq (h : Reveals sb K B c p) : c.buffered.world.icache = p.world.icache := by
  rw [← h.buffered.view]
  rfl

/-- Pages change on both sides. -/
theorem setPage (h : Reveals sb K B c p) (ino idx : ℕ) (q : Option Page) :
    Reveals sb K B (c.setPage ino idx q) (p.setPage ino idx q) where
  buffered := h.buffered
  bounded := h.bounded
  pages := by
    rw [Cached.setPage, Paged.setPage, h.pages]

theorem truncate (h : Reveals sb K B c p) : Reveals sb K B c.truncate p.truncate where
  buffered := h.buffered
  bounded := h.bounded
  pages := by
    rw [Cached.truncate, Paged.truncate, h.pages, h.icache_eq]

end Cached.Reveals

theorem tallies_pure (a : α) : Tallies own sb K B (pure a) (pure a) := .pure a fun _ _ h => h

/-- Code over buffers. -/
theorem tallies_onBuffers {x : Keeper α} {y : Driver α}
    (h : Accords (fun e => own (.ofHalt e)) sb K [] x y)
    (hx : ∀ c, Buffered.Bounded sb B c → wp x (fun _ c => c.store.Bounded B) (fun _ => True) c) :
    Tallies own sb K B (onBuffers x) (onWorld y) := by
  refine (h.and hx).zoom (fun _ _ hR => ⟨hR.buffered, hR.sb_eq, hR.bounded⟩) ?_ fun _ => rfl
  exact fun _ _ _ _ _ hR hc => ⟨hc.1, hc.2, hR.pages⟩

/-- Code over buffers that may make any of them. -/
theorem tallies_anyBuffers {x : Keeper α} {y : Driver α} (hB : ∀ bid, B bid)
    (h : Accords (fun e => own (.ofHalt e)) sb K [] x y) :
    Tallies own sb K B (onBuffers x) (onWorld y) :=
  tallies_onBuffers h fun c _ =>
    wp_mono (wp_self x c) (fun _ _ _ bid _ => hB bid) fun _ _ => trivial

/-- Code without accesses to blocks. -/
theorem tallies_onView {y : Driver α} (hy : Blockless y) :
    Tallies own sb K B (Cached.onView y) (onWorld y) :=
  tallies_onBuffers (accords_onView hy) fun _ hc => hc.wp (maintains_onView hy)

theorem tallies_putPage (ino idx : ℕ) (q : Page) :
    Tallies own sb K B (Cached.putPage ino idx q) (Paged.putPage ino idx q) :=
  fun _ p h => ⟨p.setPage ino idx (some q), rfl, h.setPage ino idx _⟩

/-- A page is put, and something is returned. -/
theorem tallies_put (ino idx : ℕ) (q : Page) (a : α) :
    Tallies own sb K B (Cached.putPage ino idx q >>= fun _ => pure a)
      (Paged.putPage ino idx q >>= fun _ => pure a) :=
  (tallies_putPage ino idx q).bind fun _ => tallies_pure a

section Transfer

variable (halias : ∀ bid, B bid → own (.aliased bid))

include halias in
/-- **The transfer of a page** takes what is shown of the block, if it has no buffer. -/
theorem Cached.Reveals.wp_unaliased {c : Cached} {p : Paged} (h : Reveals sb K B c p) (bid : ℕ) :
    wp (unaliased bid) (fun b c' => b = p.world.disk bid ∧ c'.buffered.bufs bid = none ∧
      Reveals sb K B c' p) own c := by
  rw [Cached.unaliased, wp_bind, onBuffers, wp_zoom, wp_onStore]
  have htick := Store.wp_tick (E := fun _ => own .dangling) h.buffered.inv
    fun _ hx => absurd hx List.not_mem_nil
  have hkeep : Maintains (Store.Bounded B) (Store.tick : Store.Code ℕ Block Unit) :=
    Store.maintains_tick
  refine wp_mono (wp_and htick (hkeep c.buffered.store)) ?_ fun _ he => he.1
  rintro - s ⟨⟨hinv, hshown, hdrops⟩, hkeep⟩
  have hc := h.buffered.setStore hinv hshown hdrops
  have hbounded : s.Bounded B := hkeep h.bounded
  rw [wp_bind, wp_get]
  cases hb : s.copies bid with
  | some b =>
      have hbuf : (c.buffered.setStore s).bufs bid = some b := hb
      rw [hbuf]
      refine halias bid (hbounded bid ?_)
      rw [hb]
      exact Option.some_ne_none b
  | none =>
      have hbuf : (c.buffered.setStore s).bufs bid = none := hb
      rw [hbuf]
      refine ⟨?_, hbuf, hc, hbounded, h.pages⟩
      rw [← hc.shown bid]
      exact (Store.shown_of_none _ bid hb).symm

include halias in
theorem tallies_unaliased (bid : ℕ) :
    Tallies own sb K B (Cached.unaliased bid) (onWorld (bData bid)) := by
  intro c p h
  refine wp_mono (h.wp_unaliased halias bid) ?_ fun _ he => .inl he
  rintro _ c' ⟨rfl, -, hc⟩
  exact ⟨p, rfl, hc⟩

include halias in
/-- The bytes of a page are written to a block. -/
theorem tallies_submit_write (bid : ℕ) (bytes : List UInt8) :
    Tallies own sb K B (Cached.submit_write bid bytes)
      (onWorld (modifyBuf bid fun b => storeBytes b 0 bytes)) := by
  intro c p h
  rw [Cached.submit_write, wp_bind]
  refine wp_mono (h.wp_unaliased halias bid) ?_ fun _ he => .inl he
  rintro _ c' ⟨rfl, hbuf, hc⟩
  exact ⟨_, rfl, hc.buffered.setBlock hbuf _, hc.bounded, hc.pages⟩

end Transfer

end Rules

/-! ### Files -/

section Files

variable {own : Stop → Prop} {sb : Yaf_Sb_Info} {K B : ℕ → Prop}

/-- The block of the page is found, when the search for it may stop. -/
theorem tallies_yaf_get_block {create : Bool}
    (hown : create = true → K (BID_DBP_MIN sb) → own .dangling)
    (hmin : create = true → B (BID_DBP_MIN sb)) (ino idx : ℕ) :
    Tallies own sb K B (onBuffers (Buffered.yaf_get_block ino idx create))
      (onWorld (yaf_get_block ino idx create)) :=
  tallies_onBuffers (accords_yaf_get_block hown ino idx) fun _ hc =>
    hc.wp (maintains_yaf_get_block hmin ino idx)

section Reading

variable (halias : ∀ bid, B bid → own (.aliased bid))

include halias in
theorem tallies_yaf_readahead (ino idx : ℕ) :
    Tallies own sb K B (Cached.yaf_readahead ino idx) (Paged.yaf_readahead ino idx) := by
  refine .get fun c p h => ?_
  rw [h.pages]
  refine .ite (fun _ => ?_) fun _ => tallies_pure _
  refine (tallies_onView (blockless_getInode ino)).bind fun i => ?_
  refine .ite (fun _ => ?_) fun _ => tallies_pure _
  have hfalse : ∀ {P : Prop}, false = true → P := fun h => absurd h Bool.false_ne_true
  refine (tallies_yaf_get_block hfalse hfalse ino idx).bind fun r => ?_
  obtain ⟨ret, bid⟩ := r
  cases bid with
  | none => exact .ite (fun _ => tallies_putPage _ _ _) fun _ => tallies_putPage _ _ _
  | some bid =>
      refine .ite (fun _ => tallies_putPage _ _ _) fun _ => ?_
      refine (tallies_onView (blockless_sb_bread .page bid)).bind fun b => ?_
      refine .ite (fun _ => ?_) fun _ => tallies_putPage _ _ _
      exact (tallies_unaliased halias bid).bind fun b => tallies_putPage _ _ _

include halias in
theorem tallies_vfs_read (ino off : ℕ) :
    Tallies own sb K B (Cached.vfs_read ino off) (Paged.vfs_read ino off) := by
  refine (tallies_onView (blockless_getInode ino)).bind fun i => ?_
  refine .ite (fun _ => ?_) fun _ => tallies_pure _
  refine (tallies_yaf_readahead halias ino _).bind fun _ => ?_
  refine .get fun c p h => ?_
  rw [h.pages]
  cases p.pages ino (off / YAF_BLOCK_SIZE) with
  | none => exact .throw _
  | some q => exact .ite (fun _ => tallies_pure _) fun _ => .throw _

end Reading

section Writing

variable (hown : K (BID_DBP_MIN sb) → own .dangling) (hmin : B (BID_DBP_MIN sb))
  (halias : ∀ bid, B bid → own (.aliased bid))

include hown hmin in
theorem tallies_get_block (ino idx : ℕ) (q : Page) :
    Tallies own sb K B (Cached.get_block ino idx q) (Paged.get_block ino idx q) := by
  rw [Cached.get_block, Paged.get_block]
  cases q.bh with
  | some bid => exact tallies_pure _
  | none => exact tallies_yaf_get_block (fun _ => hown) (fun _ => hmin) ino idx

include hown hmin halias in
theorem tallies_yaf_write_begin (ino pos len : ℕ) :
    Tallies own sb K B (Cached.yaf_write_begin ino pos len)
      (Paged.yaf_write_begin ino pos len) := by
  refine .ite (fun _ => tallies_pure _) fun _ => ?_
  refine .get fun c p h => ?_
  dsimp only
  rw [h.grab_eq]
  generalize p.grab ino _ = q
  refine (tallies_get_block hown hmin ino _ q).bind fun r => ?_
  obtain ⟨ret, bid⟩ := r
  cases bid with
  | none => exact tallies_put _ _ _ _
  | some bid =>
      refine .ite (fun _ => tallies_put _ _ _ _) fun _ => .ite (fun _ => tallies_put _ _ _ _)
        fun _ => ?_
      refine (tallies_onView (blockless_sb_bread .page bid)).bind fun b => ?_
      refine .ite (fun _ => ?_) fun _ => tallies_put _ _ _ _
      exact (tallies_unaliased halias bid).bind fun b => tallies_put _ _ _ _

theorem tallies_block_write_end (ino pos len copied : ℕ) :
    Tallies own sb K B (Cached.block_write_end ino pos len copied)
      (Paged.block_write_end ino pos len copied) := by
  refine .get fun c p h => ?_
  dsimp only
  rw [h.grab_eq]
  exact .ite (fun _ => tallies_put _ _ _ _) fun _ => tallies_put _ _ _ _

theorem tallies_generic_write_end (ino pos len copied : ℕ) :
    Tallies own sb K B (Cached.generic_write_end ino pos len copied)
      (Paged.generic_write_end ino pos len copied) := by
  refine (tallies_block_write_end ino pos len copied).bind fun copied => ?_
  refine (tallies_onView (blockless_getInode ino)).bind fun i => ?_
  refine .ite (fun _ => ?_) fun _ => tallies_pure _
  refine (tallies_onView (blockless_modifyInode _ _)).bind fun _ => ?_
  exact (tallies_onView (blockless_mark_inode_dirty _)).bind fun _ => tallies_pure _

theorem tallies_yaf_write_end (ino pos len copied : ℕ) :
    Tallies own sb K B (Cached.yaf_write_end ino pos len copied)
      (Paged.yaf_write_end ino pos len copied) := by
  refine (tallies_generic_write_end ino pos len copied).bind fun ret => ?_
  refine .ite (fun _ => tallies_pure _) fun _ => ?_
  refine (tallies_onView blockless_current_time).bind fun cur => ?_
  refine (tallies_onView (blockless_modifyInode _ _)).bind fun _ => ?_
  refine (tallies_onView (blockless_modifyInode _ _)).bind fun _ => ?_
  exact (tallies_onView (blockless_mark_inode_dirty _)).bind fun _ => tallies_pure _

include hown hmin halias in
theorem tallies_write_round (ino pos : ℕ) (data : List UInt8) (copied : ℕ) :
    Tallies own sb K B (Cached.write_round ino pos data copied)
      (Paged.write_round ino pos data copied) := by
  refine (tallies_yaf_write_begin hown hmin halias ino pos _).bind fun ret => ?_
  refine .ite (fun _ => tallies_pure _) fun _ => ?_
  have hcopy : Tallies own sb K B (Cached.copy_page_from_iter ino pos (data.take copied))
      (Paged.copy_page_from_iter ino pos (data.take copied)) := by
    refine .get fun c p h => ?_
    dsimp only
    rw [h.grab_eq]
    exact tallies_putPage _ _ _
  exact hcopy.bind fun _ => tallies_yaf_write_end ino pos _ copied

include hown hmin halias in
/-- **A piece of a write.** -/
theorem tallies_vfs_write (ino pos : ℕ) (data : List UInt8) (copied : ℕ) :
    Tallies own sb K B (Cached.vfs_write ino pos data copied)
      (Paged.vfs_write ino pos data copied) := by
  refine (tallies_write_round hown hmin halias ino pos data copied).bind fun status => ?_
  refine .ite (fun _ => ?_) fun _ => tallies_pure _
  exact tallies_write_round hown hmin halias ino pos _ copied

include hown hmin halias in
theorem tallies_block_write_full_folio (ino idx : ℕ) (q : Page) (bytes : List UInt8) :
    Tallies own sb K B (Cached.block_write_full_folio ino idx q bytes)
      (Paged.block_write_full_folio ino idx q bytes) := by
  refine (tallies_get_block hown hmin ino idx q).bind fun r => ?_
  obtain ⟨ret, bid⟩ := r
  cases bid with
  | none => exact tallies_pure _
  | some bid =>
      refine .get fun c p h => ?_
      have hnblk : c.buffered.world.nblk = p.world.nblk := by
        rw [← h.buffered.view]
        rfl
      rw [hnblk]
      refine .ite (fun _ => ?_) fun _ => tallies_put _ _ _ _
      exact (tallies_submit_write halias bid bytes).bind fun _ => tallies_put _ _ _ _

include hown hmin halias in
/-- **A page is written back.** -/
theorem tallies_yaf_writepage (ino idx : ℕ) :
    Tallies own sb K B (Cached.yaf_writepage ino idx) (Paged.yaf_writepage ino idx) := by
  refine (tallies_onView (blockless_getInode ino)).bind fun i => ?_
  refine .get fun c p h => ?_
  dsimp only
  rw [h.grab_eq]
  generalize p.grab ino idx = q
  refine .ite (fun _ => tallies_block_write_full_folio hown hmin halias ino idx q _) fun _ => ?_
  refine .ite (fun _ => tallies_pure _) fun _ => ?_
  exact tallies_block_write_full_folio hown hmin halias ino idx q _

end Writing

end Files

/-! ### What can happen -/

/-- Whether a search for a data block may be part of it. -/
def Event.allocates : Event → Bool
  | .call (.create _ _ _) | .call (.mkdir _ _ _) | .call (.write _ _ _ _) | .writepage _ _ => true
  | _ => false

/-- Whether the transfer of a page may be part of it. -/
def Event.transfers : Event → Bool
  | .call (.write _ _ _ _) | .read _ _ | .readahead _ _ | .writepage _ _ => true
  | _ => false

def Act.allocates : Act → Bool
  | .event e => e.allocates
  | .remount => true

def Act.transfers : Act → Bool
  | .event e => e.transfers
  | .remount => true

section Steps

variable {own : Stop → Prop} {sb : Yaf_Sb_Info} {K B : ℕ → Prop}

/-- An operation that is no write.  It may make any buffers. -/
theorem tallies_settle {α : Type} {x : Keeper α} {y : Driver α} (hB : ∀ bid, B bid)
    (h : Accords (fun e => own (.ofHalt e)) sb K [] x y) :
    Tallies own sb K B (Cached.settle x)
      (onWorld y >>= fun r => modify Paged.truncate >>= fun _ => pure r) := by
  refine (tallies_anyBuffers hB h).bind fun r => ?_
  have htruncate : Tallies own sb K B (modify Cached.truncate) (modify Paged.truncate) :=
    fun _ p hR => ⟨p.truncate, rfl, hR.truncate⟩
  exact htruncate.bind fun _ => tallies_pure r

/-- **Every operation follows the operation on single copies.** -/
theorem tallies_call {op : Op}
    (hown : (Event.call op).allocates = true → K (BID_DBP_MIN sb) → own .dangling)
    (hmin : B (BID_DBP_MIN sb))
    (halias : (Event.call op).transfers = true → ∀ bid, B bid → own (.aliased bid))
    (hB : (Event.call op).transfers = false → ∀ bid, B bid) :
    Tallies own sb K B (Cached.call op) (Paged.call op) := by
  cases op with
  | lookup dir q =>
      exact tallies_settle (hB rfl) ((accords_yaf_lookup dir q).bind fun _ => accords_pure _)
  | create dir q mode => exact tallies_settle (hB rfl) (accords_create (hown rfl) dir q _)
  | mkdir dir q mode => exact tallies_settle (hB rfl) (accords_create (hown rfl) dir q _)
  | unlink dir q ino =>
      refine tallies_settle (hB rfl) ((accords_remove ?_ ino).bind fun _ => accords_pure _)
      exact accords_yaf_delete dir q ino
  | rmdir dir q ino =>
      refine tallies_settle (hB rfl) ((accords_remove ?_ ino).bind fun _ => accords_pure _)
      exact accords_yaf_rmdir dir q ino
  | write ino pos data copied =>
      refine (tallies_vfs_write (hown rfl) hmin (halias rfl) ino pos data copied).bind fun _ => ?_
      exact tallies_pure _
  | writeInode ino =>
      exact tallies_settle (hB rfl) ((accords_writeback ino).bind fun _ => accords_pure _)
  | setSize ino size =>
      refine tallies_settle (hB rfl) (accords_onView (.bind ?_ fun _ => .pure _))
      exact .bind (blockless_modifyInode _ _) fun _ =>
        .bind (blockless_mark_inode_dirty _) fun _ => .pure _
  | closeFile ino =>
      refine tallies_settle (hB rfl) (accords_onView (.bind (blockless_modify ?_ ?_) fun _ => ?_))
      · exact fun _ => rfl
      · exact fun _ => rfl
      · exact .bind (blockless_iput ino) fun _ => .pure _
  | openFile _ | evict _ | tick _ _ _ | device _ =>
      refine tallies_settle (hB rfl) (accords_onView (.bind (blockless_modify ?_ ?_) fun _ => ?_))
      · exact fun _ => rfl
      · exact fun _ => rfl
      · exact .pure _

/-- **An event.** -/
theorem tallies_event {e : Event} (hown : e.allocates = true → K (BID_DBP_MIN sb) → own .dangling)
    (hmin : B (BID_DBP_MIN sb)) (halias : e.transfers = true → ∀ bid, B bid → own (.aliased bid))
    (hB : e.transfers = false → ∀ bid, B bid) :
    Tallies own sb K B (Cached.event e) (Paged.step e) := by
  cases e with
  | call op => exact (tallies_call hown hmin halias hB).bind fun _ => tallies_pure _
  | read ino off => exact (tallies_vfs_read (halias rfl) ino off).bind fun _ => tallies_pure _
  | readahead ino idx =>
      exact (tallies_yaf_readahead (halias rfl) ino idx).bind fun _ => tallies_pure _
  | writepage ino idx =>
      refine (tallies_yaf_writepage (hown rfl) hmin (halias rfl) ino idx).bind fun _ => ?_
      exact tallies_pure _
  | reclaim ino idx =>
      have hdrop : Tallies own sb K B (modify fun c => c.setPage ino idx none)
          (modify fun p => p.setPage ino idx none) :=
        fun _ p h => ⟨p.setPage ino idx none, rfl, h.setPage ino idx none⟩
      exact hdrop.bind fun _ => tallies_pure _

/-! ### Many mounts -/

theorem tallies_syncPages (hown : K (BID_DBP_MIN sb) → own .dangling) (hmin : B (BID_DBP_MIN sb))
    (halias : ∀ bid, B bid → own (.aliased bid)) (l : List (ℕ × ℕ)) :
    Tallies own sb K B (Cached.syncPages l) (Paged.syncPages l) := by
  induction l with
  | nil => exact tallies_pure _
  | cons x l ih =>
      obtain ⟨ino, idx⟩ := x
      refine .get fun c p h => ?_
      rw [Paged.dirty, h.pages]
      refine .ite (fun _ => ?_) fun _ => ih
      exact (tallies_yaf_writepage hown hmin halias ino idx).bind fun _ => ih

/-- Writing modified inodes back. -/
theorem accords_syncFrom {own : Halt → Prop} (rem n : ℕ) :
    Accords own sb K [] (Buffered.syncFrom rem n) (syncFrom rem n) := by
  induction rem generalizing n with
  | zero => exact accords_pure _
  | succ rem ih =>
      refine .get fun c w h => ?_
      have hcache : c.world.icache = w.icache := by
        rw [← h.view]
        rfl
      rw [hcache]
      cases w.icache n with
      | none => exact ih (n + 1)
      | some x =>
          exact .ite (fun _ => (accords_writeback n).bind fun _ => ih (n + 1)) fun _ => ih (n + 1)

/-- Nothing stays in memory, and the device has what was shown. -/
theorem Cached.Reveals.unmount {c : Cached} {p : Paged} (h : Reveals sb K B c p) :
    Reveals ⟨0, 0, 0, 0⟩ K B ⟨c.buffered.unmounted, fun _ _ => none⟩
      ⟨p.world.unmounted, fun _ _ => none⟩ where
  buffered := {
    view := by
      have hdisk : c.buffered.synced = c.buffered.view.disk := by
        funext bid
        exact h.buffered.inv.settled bid
      rw [← h.buffered.view]
      exact congrArg (fun d => ({ c.buffered.world.unmounted with disk := d } : World)) hdisk
    inv := ⟨fun _ _ hb => absurd hb.symm (Option.some_ne_none _),
      fun _ ha => absurd ha List.not_mem_nil, fun _ _ hb => absurd hb.symm (Option.some_ne_none _)⟩
    sb := rfl
    plan := h.buffered.plan }
  bounded _ hb := absurd rfl hb
  pages := rfl

/-- Unmounting.  Pages are transferred before inodes get buffers. -/
theorem follows_yaf_kill_sb (hown : K (BID_DBP_MIN sb) → own .dangling)
    (hmin : B (BID_DBP_MIN sb)) (halias : ∀ bid, B bid → own (.aliased bid)) :
    Follows .oops own (Cached.Reveals sb K B)
      (fun _ => Cached.Reveals ⟨0, 0, 0, 0⟩ K fun _ => True)
      Cached.yaf_kill_sb Paged.yaf_kill_sb := by
  refine .get fun c p h => ?_
  have hsb : c.buffered.world.sb = p.world.sb := h.buffered.world_sb
  rw [h.view_eq, hsb]
  have hinodes : Tallies own sb K (fun _ => True)
      (onBuffers (Buffered.syncFrom (p.world.sb.nr_i * INODES_PER_BLOCK) 0))
      (onWorld (syncFrom (p.world.sb.nr_i * INODES_PER_BLOCK) 0)) :=
    tallies_anyBuffers (fun _ => trivial) (accords_syncFrom _ 0)
  refine (tallies_syncPages hown hmin halias _).bind fun _ => ?_
  refine (hinodes.conseq (fun _ _ h => h.mono fun _ _ => trivial) fun _ _ _ h => h).bind fun _ => ?_
  exact fun _ p h => ⟨_, rfl, h.unmount⟩

/-- Mounting. -/
theorem follows_yaf_mount :
    Follows .oops own (Cached.Reveals sb K fun _ => True)
      (fun _ c p => Cached.Reveals p.world.sb K (fun _ => True) c p)
      Cached.yaf_mount Paged.yaf_mount :=
  follows_yaf_fill_super.zoom (fun _ _ hR => hR.buffered)
    (fun _ _ _ _ _ hR hc => ⟨hc, fun _ _ => trivial, hR.pages⟩) fun _ => rfl

/-- **Whatever happens follows what happens on single copies.** -/
theorem follows_step {a : Act} (hown : a.allocates = true → K (BID_DBP_MIN sb) → own .dangling)
    (hmin : B (BID_DBP_MIN sb)) (halias : a.transfers = true → ∀ bid, B bid → own (.aliased bid))
    (hB : a.transfers = false → ∀ bid, B bid) :
    Follows .oops own (Cached.Reveals sb K B)
      (fun _ c p => Cached.Reveals p.world.sb K (fun _ => True) c p)
      (Cached.step a) (Act.step a) := by
  cases a with
  | event e =>
      refine (tallies_event hown hmin halias hB).conseq (fun _ _ h => h) fun _ c p h => ?_
      rw [h.buffered.sb]
      exact h.mono fun _ _ => trivial
  | remount =>
      refine (follows_yaf_kill_sb (hown rfl) hmin (halias rfl)).bind fun _ => ?_
      exact follows_yaf_mount.bind fun ret => .pure _ fun _ _ h => h

end Steps

/-! ### The caches at rest -/

/-- **The caches between two operations**: they show the mount, no buffer is referred to, and a
clean buffer has what is on the device. -/
structure Cached.Rests (c : Cached) (p : Paged) : Prop where
  buffered : c.buffered.Rests p.world
  pages : c.pages = p.pages

/-- **The ways to stop that a mount with single copies does not have**: a page meets the buffer of
its block, which was there before or is that of the first block of the data bitmap, or the kernel
dropped a buffer of that block. -/
def Cached.Clashes (c : Cached) (a : Act) (e : Stop) : Prop :=
  (∃ bid, e = .aliased bid ∧ a.transfers = true ∧
      (c.buffered.bufs bid ≠ none ∨ bid = BID_DBP_MIN c.view.world.sb)) ∨
    e = .dangling ∧ a.allocates = true ∧ c.buffered.store.Drops (BID_DBP_MIN c.view.world.sb)

section Rests

variable {c : Cached} {p : Paged}

theorem Cached.Reveals.rests {sb : Yaf_Sb_Info} {K B : ℕ → Prop} (h : Reveals sb K B c p) :
    c.Rests p :=
  ⟨h.buffered.rests, h.pages⟩

namespace Cached.Rests

theorem reveals (h : c.Rests p) {K B : ℕ → Prop}
    (hK : ∀ bid, c.buffered.store.Drops bid → K bid)
    (hB : ∀ bid, c.buffered.bufs bid ≠ none → B bid) : Reveals p.world.sb K B c p :=
  ⟨h.buffered.coheres rfl hK, hB, h.pages⟩

theorem view_eq (h : c.Rests p) : c.view = p :=
  (h.reveals (K := fun _ => True) (B := fun _ => True) (fun _ _ => trivial)
    fun _ _ => trivial).view_eq

end Cached.Rests

/-- **What happens to caches at rest**, and how it may stop. -/
theorem follows_of_rests (c : Cached) (a : Act) :
    Follows .oops (c.Clashes a) (fun c' p => c' = c ∧ c.Rests p) (fun _ => Cached.Rests)
      (Cached.step a) (Act.step a) := by
  rintro c p ⟨rfl, h⟩
  have hsb : c.view.world.sb = p.world.sb := by
    rw [h.view_eq]
  -- of these blocks a buffer may stop a transfer
  let B : ℕ → Prop := fun bid => a.transfers = true →
    c.buffered.bufs bid ≠ none ∨ bid = BID_DBP_MIN p.world.sb
  have hfollow : Follows .oops (c.Clashes a)
      (Cached.Reveals p.world.sb c.buffered.store.Drops B)
      (fun _ c' p' => Cached.Reveals p'.world.sb c.buffered.store.Drops (fun _ => True) c' p')
      (Cached.step a) (Act.step a) := by
    refine follows_step (fun halloc hdrop => ?_) (fun _ => .inr rfl)
      (fun htransfer bid hbid => .inl ⟨bid, rfl, htransfer, ?_⟩) fun hno bid htransfer => ?_
    · rw [← hsb] at hdrop
      exact .inr ⟨rfl, halloc, hdrop⟩
    · rw [hsb]
      exact hbid htransfer
    · exact absurd (hno.symm.trans htransfer) Bool.false_ne_true
  refine wp_mono (hfollow c p (h.reveals (fun _ hd => hd) fun _ hb _ => .inl hb)) ?_ fun _ he => he
  rintro r c' ⟨p', hr, h'⟩
  exact ⟨p', hr, h'.rests⟩

/-- How what happens to caches at rest may stop. -/
theorem Cached.Rests.error (h : c.Rests p) {a : Act} {e : Stop}
    (hr : (Cached.step a).run c = .error e) :
    (∃ e', e = .oops e' ∧ (Act.step a).run p = .error e') ∨ c.Clashes a e := by
  rcases (follows_of_rests c a c p ⟨rfl, h⟩).error hr with hown | ⟨e', hr', rfl⟩
  · exact .inr hown
  · exact .inl ⟨e', rfl, hr'⟩

/-- What happens on single copies happens, unless it stops. -/
theorem Cached.Rests.step (h : c.Rests p) {a : Act} {r : Answer} {p' : Paged}
    (hr : (Act.step a).run p = .ok (r, p')) :
    (∃ c', (Cached.step a).run c = .ok (r, c') ∧ c'.Rests p') ∨
      ∃ e, (Cached.step a).run c = .error e ∧ c.Clashes a e :=
  (follows_of_rests c a).exists_or ⟨rfl, h⟩ hr

/-- Reading gives what it gives on single copies, unless it stops at a buffer. -/
theorem Cached.Rests.value_read (h : c.Rests p) {n off : ℕ} {x : Except ℤ (Option UInt8)}
    (hx : value (Paged.vfs_read n off) p = .ok x) :
    value (Cached.vfs_read n off) c = .ok x ∨
      ∃ bid, value (Cached.vfs_read n off) c = .error (.aliased bid) ∧
        c.buffered.bufs bid ≠ none := by
  have hfollow : Tallies (fun e => ∃ bid, e = .aliased bid ∧ c.buffered.bufs bid ≠ none)
      p.world.sb (fun _ => True) (fun bid => c.buffered.bufs bid ≠ none)
      (Cached.vfs_read n off) (Paged.vfs_read n off) :=
    tallies_vfs_read (fun bid hbid => ⟨bid, rfl, hbid⟩) n off
  obtain ⟨p', hr⟩ := exists_run_of_value hx
  rw [value]
  rcases hfollow.exists_or (h.reveals (fun _ _ => trivial) fun _ hb => hb) hr with
    ⟨c', hr', -⟩ | ⟨e, he, bid, rfl, hbid⟩
  · rw [hr']
    exact .inl rfl
  · rw [he]
    exact .inr ⟨bid, rfl, hbid⟩

end Rests

/-! ### Runs -/

section Runs

variable {c₀ c : Cached} {p₀ : Paged}

/-- **A run over many mounts has the results of a run on single copies.** -/
theorem Cached.Rests.acts {ok : Paged → Act → Prop} {l : List (Act × Answer)}
    (h : c₀.Rests p₀) (hrun : Run Cached.step (fun c a => ok c.view a) c₀ l c) :
    Run Act.step ok p₀ l c.view ∧ c.Rests c.view := by
  have hpaged : ∃ p, Run Act.step ok p₀ l p ∧ c.Rests p :=
    Follows.run follows_of_rests (fun hR hi => hR.view_eq ▸ hi) h hrun
  obtain ⟨p, hrun', hc⟩ := hpaged
  obtain rfl := hc.view_eq
  exact ⟨hrun', hc⟩

/-- A device that is not mounted shows what it has. -/
theorem Cached.Rests.device (w : World) (plan : List (List (Store.Act ℕ))) :
    (Cached.device w plan).Rests w.unpaged := ⟨.device w plan, rfl⟩

variable {ok : Paged → Act → Prop} {l : List (Act × Answer)}

/-- **The buffers of the block device cannot be seen.**  Whatever the kernel does with them between
any two accesses of the driver, a run has the results of a run on single copies of the blocks, and
ends in what is shown; no reference is left, and the device has everything after the dirty buffers
were written back.  Listing a directory gives what it gives there.  What stops where the other one
does not has met a buffer with a page, or has searched for a data block while the kernel dropped a
buffer of the data bitmap. -/
theorem coherent_of_run (h : c₀.Rests p₀)
    (hrun : Run Cached.step (fun c a => ok c.view a) c₀ l c) :
    Run Act.step ok p₀ l c.view ∧ c.Rests c.view ∧ c.buffered.synced = c.view.world.disk ∧
      (∀ dir parent ctx r, value (Buffered.yaf_iterate_shared dir parent ctx) c.buffered = .ok r ↔
        value (yaf_iterate_shared dir parent ctx) c.view.world = .ok r) ∧
      ∀ a e, (Cached.step a).run c = .error e →
        (∃ e', e = .oops e' ∧ (Act.step a).run c.view = .error e') ∨ c.Clashes a e := by
  obtain ⟨hrun', hc⟩ := h.acts hrun
  refine ⟨hrun', hc, hc.buffered.synced_eq, fun dir parent ctx r => ?_, fun a e => hc.error⟩
  have hcoheres : Coheres c.view.world.sb (fun _ => True) [] [] c.buffered c.view.world :=
    hc.buffered.coheres rfl fun _ _ => trivial
  exact (accords_yaf_iterate_shared dir parent ctx).value_iff hcoheres r

/-- A turn of the kernel that writes the buffers of the blocks `bids` back and drops them. -/
def Buffered.evict (bids : List ℕ) : List (Store.Act ℕ) :=
  bids.flatMap fun bid => [.save bid, .drop bid]

/-- Executing acts, and checking where this ends. -/
theorem Cached.exists_run (c₀ : Cached) (as : List Act)
    (p : List (Act × Answer) → Cached → Bool)
    (hp : ((exec Cached.step (fun c a => a.Ok c.view) c₀ as).any fun x => p x.1 x.2) = true) :
    ∃ l c, Run Cached.step (fun c a => a.Ok c.view) c₀ l c ∧ p l c = true :=
  exists_run_of_exec hp

/-- A file is made and written and its page is written back, while the kernel writes the buffers of
blocks 1, 3 and 4 back and drops them between any two accesses. -/
theorem coherent_small : ∃ l c,
    Run Cached.step (fun c a => a.Ok c.view)
      (Cached.device Volume.small.mounted (List.replicate 100 (Buffered.evict [1, 3, 4]))) l c ∧
    c.buffered.bufs 1 = none ∧ c.view.dirty 2 0 = false ∧
    Run Act.step Act.Ok Volume.small.mounted.unpaged l c.view ∧ c.Rests c.view ∧
      c.buffered.synced = c.view.world.disk ∧
      (∀ dir parent ctx r, value (Buffered.yaf_iterate_shared dir parent ctx) c.buffered = .ok r ↔
        value (yaf_iterate_shared dir parent ctx) c.view.world = .ok r) ∧
      ∀ a e, (Cached.step a).run c = .error e →
        (∃ e', e = .oops e' ∧ (Act.step a).run c.view = .error e') ∨ c.Clashes a e := by
  obtain ⟨l, c, hrun, hp⟩ := Cached.exists_run
    (Cached.device Volume.small.mounted (List.replicate 100 (Buffered.evict [1, 3, 4])))
    [.event (.call (.create 1 (.letters 0) 0)), .event (.call (.write 2 0 [1, 2, 3] 3)),
      .event (.writepage 2 0)]
    (fun _ c => (c.buffered.bufs 1).isNone && !c.view.dirty 2 0) (by decide +kernel)
  rw [Bool.and_eq_true, Option.isNone_iff_eq_none, Bool.not_eq_true'] at hp
  exact ⟨l, c, hrun, hp.1, hp.2, coherent_of_run (.device _ _) hrun⟩

-- a file gets the block of a directory that was removed, whose buffer is still there
example : ((exec Cached.step (fun c a => a.Ok c.view) (Cached.device Volume.small.mounted [])
      [.event (.call (.mkdir 1 (.letters 0) 0)), .event (.call (.create 2 (.letters 1) 0)),
        .event (.call (.unlink 2 (.letters 1) 3)), .event (.call (.rmdir 1 (.letters 0) 2)),
        .event (.call (.create 1 (.letters 1) 0))]).any fun x =>
      (value (Cached.yaf_write_begin 2 0 1) x.2 == .error (.aliased 5))) = true := by
  decide +kernel

-- a buffer of the bitmap of the data blocks is dropped between `brelse` and `mark_buffer_dirty`
example : value (Cached.call (.create 1 (.letters 0) 0))
    (Cached.device Volume.small.mounted (List.replicate 100 (Buffered.evict [2]))) =
      .error .dangling := by
  decide +kernel

/-- **Nothing is lost, and nothing is held up, until two copies of a block meet.**  Whatever the
kernel does with the buffers, a fresh volume can be mounted, and every run on single copies of the
blocks is a run with both caches, with the same results, or a first part of it is, after which the
next step stops at a buffer. -/
theorem undisturbed_of_run {v : Volume} (h : v.Ok) (plan : List (List (Store.Act ℕ))) {p : Paged}
    (hrun : Run Act.step ok (fresh v).unpaged l p) :
    ∃ c₀, Cached.yaf_mount.run (Cached.device v.device plan) = .ok (0, c₀) ∧
      c₀.Rests (fresh v).unpaged ∧
      ((∃ c, Run Cached.step (fun c a => ok c.view a) c₀ l c ∧ c.Rests p) ∨
        ∃ l₁ x l₂ c e, l = l₁ ++ x :: l₂ ∧ Run Cached.step (fun c a => ok c.view a) c₀ l₁ c ∧
          (Cached.step x.1).run c = .error e ∧ c.Clashes x.1 e) := by
  obtain ⟨b, hmount, hb⟩ := Volume.exists_mount (K := fun _ => True) h plan fun _ _ => trivial
  have h₀ : (⟨b, fun _ _ => none⟩ : Cached).Rests (fresh v).unpaged := ⟨hb.rests, rfl⟩
  refine ⟨⟨b, fun _ _ => none⟩, ?_, h₀, ?_⟩
  · rw [Cached.yaf_mount, onBuffers, run_zoom]
    have hdevice : (Cached.device v.device plan).buffered = Buffered.device v.device plan := rfl
    rw [hdevice, hmount]
    rfl
  · exact Follows.run_until follows_of_rests (fun hR hi => hR.view_eq.symm ▸ hi) h₀ hrun

/-- The same from the mount on. -/
theorem undisturbed_small : ∃ l p, Run Act.step Act.Ok (fresh .small).unpaged l p ∧
    p.dirty 2 0 = false ∧
    ∃ c₀, Cached.yaf_mount.run (Cached.device Volume.small.device
        (List.replicate 100 (Buffered.evict [1, 3, 4]))) = .ok (0, c₀) ∧
      c₀.Rests (fresh .small).unpaged ∧
      ((∃ c, Run Cached.step (fun c a => a.Ok c.view) c₀ l c ∧ c.Rests p) ∨
        ∃ l₁ x l₂ c e, l = l₁ ++ x :: l₂ ∧ Run Cached.step (fun c a => a.Ok c.view) c₀ l₁ c ∧
          (Cached.step x.1).run c = .error e ∧ c.Clashes x.1 e) := by
  obtain ⟨l, p, hrun, hp⟩ := Volume.exists_acts Volume.small_ok
    [.event (.call (.create 1 (.letters 0) 0)), .event (.call (.write 2 0 [1, 2, 3] 3)),
      .event (.writepage 2 0)]
    (fun _ p => !p.dirty 2 0) (by decide +kernel)
  rw [Bool.not_eq_true'] at hp
  exact ⟨l, p, hrun, hp, undisturbed_of_run Volume.small_ok _ hrun⟩

end Runs

end Yaf
