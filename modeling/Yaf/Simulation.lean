/-
**The driver is simulated by the tree of directories.**

Every operation of the driver does to the world what `Yaf.Namespace.step` does to the tree, with
the same result, and stops with a fault only where that function has no value.

Main definitions:

* `Yaf.Namespace.overflows` — whether a creation finds the first block of the inode bitmap full;
* `Yaf.Op.Tame`, `Yaf.Op.Careful` — the operations on directories, and those on files besides, on a
  device that does not fail;
* `Yaf.Volume.tree` — the tree of a fresh volume.

Main results:

* `Yaf.Mirrors.step` — **a step of the driver is a step of the tree**;
* `Yaf.exists_models_of_run` — every state of a run stands for a tree with the invariant.
-/

import Yaf.Writing

set_option relaxedAutoImplicit false
set_option autoImplicit false

namespace Yaf

open Prog

variable {w w' : World} {s s' : Namespace}

/-! ### Creation -/

namespace Namespace

/-- Whether an operation asks for an inode number while the first block of the bitmap is full. -/
def overflows (s : Namespace) : Op → Bool
  | .create p q _ | .mkdir p q _ =>
      decide (q.len ≤ 24) && (s.getFree p).isSome && (Mem.clears s.iset 32768).isEmpty
  | _ => false

/-- Whether an operation asks for a block of a directory, and the one that is found is not on the
device. -/
def strands (s : Namespace) : Op → Bool
  | .create p q _ | .mkdir p q _ => decide (q.len ≤ 24) && s.stranded p
  | _ => false

end Namespace

namespace Refines

/-- Whether a creation gets as far as asking for an inode number. -/
theorem callsInode_eq (h : Refines w s) (hinv : s.Inv) {p : ℕ} (hp : s.holds S_ISDIR p)
    (q : Qstr) : w.callsInode p q = (decide (q.len ≤ 24) && (s.getFree p).isSome) := by
  have hlive := hinv.core p hp.1
  have hwp : wp (yaf_get_free_dentry p) (fun r w' =>
      (∃ j s', s.getFree p = some (j, s') ∧ Refines w' s' ∧ r = (32 * j : ℕ)) ∨
        s.getFree p = none ∧ r = -ENOSPC) (fun _ => s.getFree p = none) w :=
    h.wp_get_free hinv hp (fun j s' w' hg hr => .inl ⟨j, s', hg, hr, rfl⟩)
      (fun hg _ => .inr ⟨hg, rfl⟩) fun hg _ => hg
  rw [World.callsInode]
  congr 1
  cases hrun : (yaf_get_free_dentry p).run w with
  | error e =>
      rw [hwp.error hrun]
      rfl
  | ok x =>
      obtain ⟨r, w₁⟩ := x
      rcases hwp.ok hrun with ⟨j, s₁, hg, hr, rfl⟩ | ⟨hg, rfl⟩
      · -- the slot is in a block on the device
        have hgives := hinv.getFree hlive hp.2 hg
        have hcore := hgives.core hp.1
        have hlive₁ := hgives.inv.core p hcore
        obtain ⟨hsize, hle⟩ := hgives.inv.count_le hlive₁ hgives.dir
        have hlt := hgives.lt
        have hdev := slotBlk_lt hgives.inv hlive₁ hgives.dir hlt
        rw [Inode.slotBlk, ← hr.sb] at hdev
        have hoff : (((32 * j : ℕ) : ℤ) % 2 ^ 64).toNat / 4096 = j / 128 := by omega
        have hblk : j / 128 < 8 := by omega
        simp only [hr.inode? hcore, YAF_BLOCK_SIZE_eq, hoff, hr.readable .dentry hdev, hg,
          decide_eq_true hblk, Option.isSome_some, Bool.and_self]
      · have hoff : 8 ≤ ((-ENOSPC : ℤ) % 2 ^ 64).toNat / 4096 := by decide
        rw [hg]
        dsimp only
        split
        · rw [YAF_BLOCK_SIZE_eq, decide_eq_false (Nat.not_lt.2 hoff), Bool.false_and]
          rfl
        · rfl

/-- **A creation of the driver is one of the tree.**  It panics only for want of a block on the
device. -/
theorem wp_create (h : Refines w s) (hinv : s.Inv) {p : ℕ} (hp : s.holds S_ISDIR p) {q : Qstr}
    {mode : UInt16} (hov : (w.callsInode p q && w.inodesFull) = false) :
    wp (_yaf_create p q mode) (fun r w' => ∃ s', s.create p q mode = some (r, s') ∧ Refines w' s')
      (fun e => s.create p q mode = none ∧
        (e = .panic → (decide (q.len ≤ 24) && s.stranded p) = true)) w := by
  have hlive := hinv.core p hp.1
  rw [h.callsInode_eq hinv hp, inodesFull_eq h.held, h.iset] at hov
  rw [_yaf_create, YAF_DENTRY_NAME_LEN_eq]
  unfold Namespace.create
  split
  · rw [if_neg (Nat.not_le.2 ‹_›)]
    exact ⟨s, rfl, h⟩
  · have hlen : q.len ≤ 24 := Nat.not_lt.1 ‹_›
    rw [if_pos hlen, wp_bind]
    rw [decide_eq_true hlen, Bool.true_and] at hov
    refine h.wp_get_free hinv hp (fun j s₁ w₁ hg hr => ?_) (fun hg _ => ?_) fun hg hst => ?_
    · have hgives := hinv.getFree hlive hp.2 hg
      have hcore := hgives.core hp.1
      obtain ⟨hsize, hle⟩ := hgives.inv.count_le (hgives.inv.core p hcore) hgives.dir
      have hlt := hgives.lt
      have hoff : (((32 * j : ℕ) : ℤ) % 2 ^ 64).toNat = 32 * j := by omega
      have hnum : (Mem.clears s.iset 32768).head? ≠ none := by
        rw [hg, Option.isSome_some, Bool.true_and] at hov
        intro hnone
        rw [List.head?_eq_none_iff.1 hnone] at hov
        simp at hov
      rw [hg, Option.bind_some, hoff]
      rw [← hgives.iset] at hnum
      refine hr.wp_linkDentry hgives.inv ⟨hcore, hgives.dir⟩ hlt hlen hnum
        (fun n w' hn hlt hr' => ?_) fun n hn hlt => ?_
      · rw [hgives.iset] at hn
        rw [hgives.sb] at hlt
        rw [hn, Option.map_some, if_pos hlt]
        exact ⟨_, rfl, hr'⟩
      · rw [hgives.iset] at hn
        rw [hgives.sb] at hlt
        rw [hn, Option.map_some, if_neg hlt]
        exact ⟨s₁, rfl, hr⟩
    · -- the error code is taken for an offset, and lies past the last block
      have hoff : 8 ≤ ((-ENOSPC : ℤ) % 2 ^ 64).toNat / 4096 := by decide
      rw [wp_linkDentry_of_le (h.inode? hp.1) hoff, hg]
      exact ⟨rfl, fun he => by simp at he⟩
    · rw [hg, decide_eq_true hlen, Bool.true_and]
      exact ⟨rfl, fun _ => hst⟩

end Refines

/-! ### Removal -/

/-- The blocks of an allocated inode below its size: all of them are marked, and no two are the
same. -/
theorem sized_marked (hinv : s.Inv) {n : ℕ} (hn : s.Live n) : (s.node n).i_size ≤ 32768 ∧
    (s.node n).sized.Nodup ∧ ∀ d ∈ (s.node n).sized, s.dset d = true := by
  have hshape : (s.node n).i_size ≤ 32768 ∧
      ∀ k < 8, k * 4096 < (s.node n).i_size → (s.node n).blk k ≠ RESERVED_DNO := by
    by_cases hd : s.IsDir n
    · have hdir := hinv.dir n hn hd
      exact ⟨hdir.le, fun k hk => (hdir.dense k hk).2⟩
    · have hfile := hinv.file n hn hd
      exact ⟨hfile.le, hfile.covered⟩
  obtain ⟨hle, hres⟩ := hshape
  have hblk : ∀ k < ((s.node n).i_size + 4095) / 4096, (s.node n).blk k ≠ RESERVED_DNO :=
    fun k hk => hres k (by omega) (by omega)
  refine ⟨hle, ?_, fun d hd => ?_⟩
  · rw [Inode.sized]
    refine List.Nodup.map_on (fun k hk l hl he => ?_) List.nodup_range
    rw [List.mem_range] at hk
    exact (hinv.sole n n k l hn hn (hblk k hk) (UInt32.toNat_inj.1 he)).2
  · obtain ⟨k, hk, rfl⟩ := List.mem_map.1 hd
    rw [List.mem_range] at hk
    exact (hinv.owned n k hn (hblk k hk)).1

namespace Tracks

/-- A marked block has a bit in the bitmap. -/
theorem lt_of_dset (h : Tracks w s) {d : ℕ} (hd : s.dset d = true) :
    d < w.sb.nr_dbp * 32768 ∧ w.dbit d = true := by
  rw [← h.dset] at hd
  rcases Nat.lt_or_ge d (w.sb.nr_dbp * 32768) with hlt | hge
  · exact ⟨hlt, by rwa [World.dset_of_lt hlt] at hd⟩
  · rw [World.dset_of_le hge] at hd
    simp at hd

/-- Marked blocks can be released, each once. -/
theorem releasable (h : Tracks w s) {l : List ℕ} (hnd : l.Nodup)
    (hl : ∀ d ∈ l, s.dset d = true) : w.Releasable l := by
  induction l generalizing w s with
  | nil => exact trivial
  | cons d l ih =>
      obtain ⟨hlt, hbit⟩ := h.lt_of_dset (hl d List.mem_cons_self)
      obtain ⟨hd, hnd⟩ := List.nodup_cons.1 hnd
      refine ⟨w.readable_of_ioOk h.io _ (h.held.layout.IDXD2BID_lt hlt), hbit,
        ih (h.markD hlt false) hnd fun e he => ?_⟩
      have hne : e ≠ d := by
        rintro rfl
        exact hd he
      exact (Function.update_of_ne hne _ _).trans (hl e (List.mem_cons_of_mem d he))

end Tracks

/-- Releasing blocks changes no block of data. -/
theorem data_unmark {w : World} {l : List ℕ} (hl : ∀ d ∈ l, d < w.sb.nr_dbp * 32768) :
    (w.unmark l).view.data = w.view.data := by
  induction l generalizing w with
  | nil => rfl
  | cons d l ih =>
      have hmark := w.view_markD (hl d List.mem_cons_self) false
      have hrest := ih (w := w.markD d false) fun e he => hl e (List.mem_cons_of_mem d he)
      exact hrest.trans (by rw [hmark, View.data_setD])

namespace Refines

/-- A slot is freed, and its directory loses a link. -/
theorem unlink (h : Refines w s) {p : ℕ} (hp : s.core p ≠ none) (d off j : ℕ) :
    Tracks (w.unlink p (DNO2BID w.sb d) off) ((s.put p j none).edit p fun i =>
      { i.setTimes s.now with i_nlink := i.i_nlink - 1 }) := by
  rw [World.unlink, h.now]
  refine ((h.toTracks.put p j none).setData d _).touch hp ?_
  have hsize := h.held.size_of_inode? (h.inode? hp)
  exact hsize

/-- **The slot of a removed entry**, and what is released with it. -/
theorem drop (h : Refines w s) (hinv : s.Inv) {p j ino : ℕ} {name : List UInt8}
    (hp : s.holds S_ISDIR p) (he : s.slot p j = some (name, ino)) (hne : ino ≠ p) :
    Refines ((((w.unlink p (DNO2BID w.sb ((s.node p).slotBlk j)) (32 * (j % 128))).unmark
      (s.node ino).sized).markI ino false).setCore ino none) (s.drop p j ino) := by
  have hlive := hinv.core p hp.1
  obtain ⟨hd, hj⟩ := hinv.isDir p j _ he
  have hino := hinv.tree.child_alive he
  obtain ⟨-, -, hmarked⟩ := sized_marked hinv hino
  set d := (s.node p).slotBlk j with hdd
  set b := Mem.wr32 (w.disk (DNO2BID w.sb d)) (32 * (j % 128)) RESERVED_INO with hb
  set w₁ := w.unlink p (DNO2BID w.sb d) (32 * (j % 128)) with hw₁
  have hsb₁ : w₁.sb = w.sb := rfl
  have hblocks : ∀ e ∈ (s.node ino).sized, e < w₁.sb.nr_dbp * 32768 := fun e he' => by
    rw [hsb₁]
    exact (h.lt_of_dset (hmarked e he')).1
  have hfree := (h.unlink hp.1 d (32 * (j % 128)) j).unmark hblocks
  have hsb₂ : (w₁.unmark (s.node ino).sized).sb = w.sb := (w₁.unmark_consts _).1
  have hlt : ino < (w₁.unmark (s.node ino).sized).sb.nr_i * 64 := by
    rw [hsb₂]
    exact h.range ino hino
  have hdata : ((((w₁.unmark (s.node ino).sized).markI ino false).setCore ino none).view.data) =
      Function.update w.view.data d b := by
    have hcov : ino < (w₁.unmark (s.node ino).sized).sb.nr_ibp * 32768 := by
      rw [hsb₂] at hlt ⊢
      exact Nat.lt_of_lt_of_le hlt h.held.layout.ibp_covers
    have hmark := World.view_markI (w₁.unmark (s.node ino).sized) hcov false
    have hcopy : ((((w₁.unmark (s.node ino).sized).markI ino false).setCore ino none).view.data) =
        ((w₁.unmark (s.node ino).sized).markI ino false).view.data := rfl
    rw [hcopy, hmark, View.data_setI, data_unmark hblocks, hw₁, World.unlink, World.data_touch,
      World.view_setData]
    rfl
  have hoff : 32 * (j % 128) % 32 = 0 := by omega
  refine ⟨?_, h.shows.store hdata hoff (fun x hx => ?_) fun a c ha hda hc => ?_,
    h.stores.store hdata fun m off x hx => ?_⟩
  · exact (hfree.release hlt).learn _
  · rw [hb, free_of_disjoint _ hx]
    rfl
  · have hnode : ∀ m, (s.drop p j ino).node m = if m = p then
        { (s.node p).setTimes s.now with i_nlink := (s.node p).i_nlink - 1 } else s.node m :=
      fun m => Function.update_apply _ _ _ _
    have hslot : (s.drop p j ino).slot = Forest.put s.slot p j none := rfl
    have hal : s.Live a := by
      obtain ⟨hset, ha₀⟩ := ha
      have hset' : Function.update s.iset ino false a = true := hset
      rw [Function.update_apply] at hset'
      split at hset'
      · simp at hset'
      · exact ⟨hset', ha₀⟩
    have hnode' : ((s.drop p j ino).node a).i_mode = (s.node a).i_mode ∧
        ((s.drop p j ino).node a).i_size = (s.node a).i_size ∧
        ∀ k, ((s.drop p j ino).node a).blk k = (s.node a).blk k := by
      rw [hnode]
      split
      · rw [‹a = p›]
        exact ⟨rfl, rfl, fun _ => rfl⟩
      · exact ⟨rfl, rfl, fun _ => rfl⟩
    rw [Namespace.IsDir, hnode'.1] at hda
    rw [Namespace.count, hnode'.2.1] at hc
    have hslotBlk : ((s.drop p j ino).node a).slotBlk c = (s.node a).slotBlk c := by
      rw [Inode.slotBlk, Inode.slotBlk, hnode'.2.2]
    by_cases heq : a = p ∧ c = j
    · obtain ⟨rfl, rfl⟩ := heq
      refine .inl ⟨hslotBlk, rfl, ?_⟩
      rw [hslot, Forest.put_apply, if_pos ⟨rfl, rfl⟩, hb]
      exact entry_free (w.disk (DNO2BID w.sb d)) (32 * (c % 128))
    · refine .inr ⟨⟨hal, hda, hc, hslotBlk, ?_⟩, fun hblk hmod => heq ?_⟩
      · rw [hslot, Forest.put_apply, if_neg heq]
      · obtain ⟨hap, hcj⟩ := slot_sole hinv hal hda hc hlive hblk (by omega)
        exact ⟨hap, hcj⟩
  · have hbytes : (s.drop p j ino).bytes m = if m = ino then fun _ => none else s.bytes m :=
      Function.update_apply _ _ _ _
    rw [hbytes] at hx
    split at hx
    · simp at hx
    · obtain ⟨-, hf, -⟩ := hinv.known m off x hx
      have hmp : m ≠ p := by
        rintro rfl
        exact hf hp.2
      have hnode : (s.drop p j ino).node m = s.node m := Function.update_of_ne hmp _ _
      exact ⟨hx, by rw [hnode], known_ne hinv hx hlive hp.2 _⟩

/-- **A deletion of the driver**, also of an inode that is open.  The inode stays in memory, and has
no link. -/
theorem wp_yaf_delete (h : Refines w s) (hinv : s.Inv) {p ino : ℕ} {q : Qstr}
    (hp : s.holds S_ISDIR p) (hb : s.bound p q = some ino) (hino : s.core ino ≠ none)
    (hlink : s.IsDir ino → ¬(s.node ino).i_nlink > 1) {Q : ℤ → World → Prop} {E : Fault → Prop}
    (hdone : ∀ j (w' : World), q.len ≤ 24 → s.named p q = some j → w'.inode? ino = some (s.node ino) →
      (s.node ino).i_nlink = 1 → w'.opens = s.opens →
      Refines ((w'.markI ino false).setCore ino none) (s.drop p j ino) →
      Q 0 ((w'.markI ino false).touch ino Inode.dropLink)) :
    wp (yaf_delete p q ino) Q E w := by
  obtain ⟨hlen, j, hj, he⟩ := Namespace.bound_eq_some hb
  have hlive := hinv.core p hp.1
  have hlive' := hinv.tree.child_alive he
  obtain ⟨hd, hlt⟩ := hinv.isDir p j _ he
  obtain ⟨hsize, hle⟩ := hinv.count_le hlive hd
  have hne : ino ≠ p := by
    rintro rfl
    have hleaf := hinv.leaf hlive' hlink j
    rw [he] at hleaf
    simp at hleaf
  -- the inode has one link, which is about to go
  have hone : (s.node ino).i_nlink = 1 := by
    by_cases hdir : s.IsDir ino
    · have hlinks := hinv.links ino hlive' hdir
      have hle : (s.node ino).i_nlink.toNat ≤ 1 := UInt32.not_lt.1 (hlink hdir)
      exact UInt32.toNat_inj.1 (by rw [show (1 : UInt32).toNat = 1 from rfl]; omega)
    · exact hinv.link ino hlive' hdir
  obtain ⟨hsz, hnd, hmarked⟩ := sized_marked hinv hlive'
  have hdiv : 32 * j / 4096 = j / 128 := by omega
  have hmod : 32 * j % 4096 = 32 * (j % 128) := by omega
  have hdev := slotBlk_lt hinv hlive hd hlt
  rw [Inode.slotBlk, ← h.sb] at hdev
  have hi := h.inode? hp.1
  have hin : (w.unlink p (DNO2BID w.sb ((s.node p).blk (j / 128)).toNat)
      (32 * (j % 128))).inode? ino = some (s.node ino) := by
    rw [World.unlink, World.inode?_touch, if_neg hne]
    exact h.inode? hino
  have hdrop := h.drop hinv hp he hne
  rw [Inode.slotBlk] at hdrop
  rw [yaf_delete, wp_bind]
  refine h.wp_lookup hinv hp hlen ?_
  rw [hj]
  dsimp only
  have hpos : decide (((32 * j : ℕ) : ℤ) ≥ 0) = true := decide_eq_true (Int.natCast_nonneg _)
  rw [wp_bind, wp_assert, hpos]
  refine ⟨fun _ => ?_, fun h => by simp at h⟩
  rw [Int.toNat_natCast, wp_unlinkDentry hi (by omega) (by rw [hdiv, hmod]; exact hin), hdiv, hmod,
    h.readable .dentry hdev, if_pos rfl]
  dsimp only
  rw [hone, if_neg (by decide)]
  set w₁ := w.unlink p (DNO2BID w.sb ((s.node p).blk (j / 128)).toNat) (32 * (j % 128)) with hw₁
  have htracks := h.unlink hp.1 ((s.node p).blk (j / 128)).toNat (32 * (j % 128)) j
  rw [← hw₁] at htracks
  have hfree := htracks.unmark fun e he' => (htracks.lt_of_dset (hmarked e he')).1
  refine wp_putBlocks _ (fun _ _ => ?_) fun hno => absurd ⟨hsz, ?_⟩ hno
  · have hlti := hfree.range ino hlive'
    have hcov := Nat.lt_of_lt_of_le hlti hfree.held.layout.ibp_covers
    have hbit : (w₁.unmark (s.node ino).sized).ibit ino = true := by
      rw [← World.iset_of_lt hcov, hfree.iset]
      exact hlive'.1
    have hrd : (w₁.unmark (s.node ino).sized).readable .bitmap
        (IDXI2BID (w₁.unmark (s.node ino).sized).sb ino) = true :=
      World.readable_of_ioOk _ hfree.io _ (hfree.held.layout.IDXI2BID_lt hcov)
    have hcore : (w₁.unmark (s.node ino).sized).inode? ino = some (s.node ino) := by
      rw [World.inode?, (w₁.unmark_consts _).2.2.2.1]
      exact hin
    rw [Inode.sized_dropLink, World.unmark_edit, wp_yaf_put_inode]
    set w₂ := w₁.unmark (s.node ino).sized with hw₂
    rw [if_pos ⟨hrd, hbit⟩, World.markI_edit, World.touch_edit]
    exact hdone j w₂ hlen hj hcore hone hfree.opens hdrop
  · rw [Inode.sized_dropLink, World.releasable_edit]
    exact htracks.releasable hnd hmarked

/-- **A removal of the driver is one of the tree.** -/
theorem wp_remove (h : Refines w s) (hinv : s.Inv) {p ino : ℕ} {q : Qstr}
    (hp : s.holds S_ISDIR p) (hb : s.bound p q = some ino) (hino : s.core ino ≠ none)
    (hlink : s.IsDir ino → ¬(s.node ino).i_nlink > 1) (hopen : s.opens ino = 0) :
    wp (remove (yaf_delete p q ino) ino)
      (fun r w' => ∃ s', s.remove p q ino = some ((r, none), s') ∧ Refines w' s')
      (fun _ => False) w := by
  refine Yaf.wp_remove (h.wp_yaf_delete hinv hp hb hino hlink ?_)
  intro j w₂ hlen hj hcore hone hopens hdrop
  -- the last link is gone and nobody has the file open
  have hput : ((w₂.markI ino false).touch ino Inode.dropLink).iput ino =
      (w₂.markI ino false).setCore ino none := by
    have hlast : ((w₂.markI ino false).touch ino Inode.dropLink).inode? ino =
        some (s.node ino).dropLink := by
      rw [World.inode?_touch, if_pos rfl, World.markI, World.inode?_setBlock, hcore]
      rfl
    have hzero : (s.node ino).dropLink.i_nlink = 0 ∧
        ((w₂.markI ino false).touch ino Inode.dropLink).opens ino = 0 := by
      constructor
      · rw [Inode.dropLink, hone]
        rfl
      · rw [World.opens_touch]
        exact (congrFun hopens ino).trans hopen
    rw [World.iput, hlast]
    dsimp only
    rw [if_pos hzero, World.touch, World.setCore_setCore]
  unfold Namespace.remove
  rw [if_pos hlen, hj, Option.map_some, if_pos rfl, hput]
  exact ⟨_, rfl, hdrop⟩

end Refines

/-! ### Lookups -/

namespace Refines

/-- A new access time. -/
theorem access (h : Refines w s) {p : ℕ} (hp : s.core p ≠ none) :
    Refines (w.touch p fun i => { i with i_atime := w.now })
      (s.edit p fun i => { i with i_atime := s.now }) := by
  rw [h.now]
  exact h.touch hp (f := fun i => { i with i_atime := s.now }) (fun _ => rfl) (fun _ => rfl)
    fun _ _ => rfl

/-- Reading an inode in, when the one in memory is not dirty. -/
theorem load (h : Refines w s) (hinv : s.Inv) {n : ℕ} (hn : s.Live n)
    (hclean : s.core n ≠ some true) : Refines (w.load n) (s.load n) := by
  refine h.of_attrs hinv (h.toTracks.load hn hclean) rfl rfl rfl rfl fun m _ => ?_
  simp only [Namespace.load, Function.update_apply]
  split
  · rw [‹m = n›]
    exact hinv.attrs_narrow hn
  · rfl

/-- **A lookup of the driver is one of the tree.** -/
theorem wp_yaf_lookup (h : Refines w s) (hinv : s.Inv) {p : ℕ} (hp : s.holds S_ISDIR p) {q : Qstr}
    (hclean : ∀ n, s.bound p q = some n → s.core n ≠ some true) :
    wp (yaf_lookup p q) (fun r w' => ∃ s', s.lookup p q = ((r, none), s') ∧ Refines w' s')
      (fun _ => False) w := by
  have hlive := hinv.core p hp.1
  unfold Namespace.lookup
  rw [yaf_lookup, wp_bind]
  rcases Nat.lt_or_ge 24 q.len with hlen | hlen
  · rw [wp_lookup_of_lt hlen, if_pos (by decide), if_neg (by decide), if_neg (Nat.not_le.2 hlen)]
    exact ⟨s, rfl, h⟩
  · rw [if_pos hlen]
    refine h.wp_lookup hinv hp hlen ?_
    cases hn : s.named p q with
    | none =>
        have hb : s.bound p q = none := by rw [Namespace.bound, if_pos hlen, hn]; rfl
        dsimp only
        rw [if_pos (by decide), if_pos rfl, hb, wp_lookupOut]
        exact ⟨_, rfl, h.access hp.1⟩
    | some j =>
        obtain ⟨hj, ino, he⟩ := Namespace.named_eq_some hn
        have hb : s.bound p q = some ino := by
          rw [Namespace.bound, if_pos hlen, hn, Option.bind_some, he]
          rfl
        obtain ⟨hsize, hle⟩ := hinv.count_le hlive hp.2
        have hdiv : 32 * j / 4096 = j / 128 := by omega
        have hmod : 32 * j % 4096 = 32 * (j % 128) := by omega
        have hdev := slotBlk_lt hinv hlive hp.2 hj
        rw [Inode.slotBlk, ← h.sb] at hdev
        have hentry := h.shows p j hlive hp.2 hj
        rw [he] at hentry
        have hino : (d_ino (w.disk (DNO2BID w.sb ((s.node p).blk (j / 128)).toNat))
            (32 * (j % 128))).toNat = ino := hentry.2.1
        have hchild := hinv.tree.child_alive he
        have hneg : ¬((32 * j : ℕ) : ℤ) < 0 := Int.not_lt.2 (Int.natCast_nonneg _)
        dsimp only
        rw [if_neg hneg, wp_bind, wp_get, wp_bind, wp_getInode (h.inode? hp.1), Int.toNat_natCast,
          YAF_BLOCK_SIZE_eq, hdiv, hmod, wp_bind, wp_iblock _ (by omega), wp_bind, wp_sb_bread,
          h.readable .dentry hdev, if_pos rfl, wp_bind, wp_bData, hino, wp_bind,
          wp_yaf_iget (h.range ino hchild), hb]
        -- the inode is read, whether or not it is in memory
        have hload := h.load hinv hchild (hclean ino hb)
        have hcore : (s.load ino).core p ≠ none := by
          simp only [Namespace.load, Function.update_apply]
          split
          · exact Option.some_ne_none _
          · exact hp.1
        have hrest : wp (do if (0 : ℤ) < 0 then pure 0 else lookupOut p)
            (fun r w' => ∃ s', ((0, none), (s.load ino).edit p fun i => { i with i_atime := s.now }) =
              (((r, none) : Reply), s') ∧ Refines w' s') (fun _ => False) (w.load ino) := by
          rw [if_neg (Int.lt_irrefl 0), wp_lookupOut]
          exact ⟨_, rfl, hload.access hcore⟩
        have hrd : w.readable .inode (INO2BID w.sb ino) = true :=
          w.readable_of_ioOk h.io _ (h.held.layout.INO2BID_lt (h.range ino hchild))
        have hask : w.io .iget_locked w.disk = true := by rw [h.io]; rfl
        cases hc : w.icache ino with
        | some c =>
            dsimp only
            rw [h.unlocked ino c hc, if_neg Bool.false_ne_true, if_pos hrd]
            exact hrest
        | none =>
            dsimp only
            rw [if_pos hask, if_pos hrd]
            exact hrest

end Refines

/-! ### Handles -/

namespace Refines

/-- Another number of handles. -/
theorem handles (h : Refines w s) (n m : ℕ) :
    Refines { w with opens := Function.update w.opens n m }
      { s with opens := Function.update s.opens n m } :=
  ⟨⟨⟨h.held.layout, h.held.core⟩, h.io, h.sb, h.nblk, by rw [h.opens], h.now, h.fsuid, h.fsgid,
    h.iset, h.dset, h.core, h.unlocked, h.node, h.clean, h.out, h.range⟩, h.shows, h.stores⟩

/-- A file that has a link stays in memory. -/
theorem iput_eq (h : Refines w s) {n : ℕ} (hn : (s.node n).i_nlink ≠ 0) : w.iput n = w := by
  rw [World.iput]
  by_cases hc : s.core n = none
  · have hin : w.inode? n = none := by rw [World.inode?, h.inode?_none hc]
    rw [hin]
  · rw [h.inode? hc]
    exact if_neg fun hz => hn hz.1

end Refines

/-! ### Steps -/

/-- The calls of the VFS, and what the kernel does on its own: everything but changes of the size
and of the device. -/
def Op.isCall : Op → Bool
  | .setSize .. | .device _ => false
  | _ => true

/-- The operations on directories, and what the kernel does on its own. -/
def Op.isNamespace : Op → Bool
  | .lookup .. | .create .. | .mkdir .. | .unlink .. | .rmdir .. | .writeInode _ | .evict _
  | .tick .. => true
  | _ => false

/-- Whether a lookup reads an inode whose copy in memory was not written back. -/
def Op.overwrites (w : World) : Op → Bool
  | .lookup dir q => (w.boundTo dir q).any fun n => (w.icache n).any InCore.dirty
  | _ => false

/-- Whether a file is removed that is open. -/
def Op.removesOpen (w : World) : Op → Bool
  | .unlink _ _ ino => decide (0 < w.opens ino)
  | _ => false

/-- Whether a write asks for more blocks than the first block of the data bitmap has. -/
def Op.starves (w : World) : Op → Bool
  | .write ino pos data _ => !w.grants (w.wantsBlocks ino pos data.length)
  | _ => false

/-- **The operations on directories**, on a device that does not fail: no search for an inode
number finds the first block of the bitmap full, and lookups reach only inodes whose copy in
memory, if any, was written back. -/
def Op.Tame (w : World) (op : Op) : Prop :=
  op.Pre w ∧ op.isNamespace = true ∧ op.overflows w = false ∧ op.overwrites w = false

instance (w : World) (op : Op) : Decidable (op.Tame w) :=
  inferInstanceAs (Decidable (_ ∧ _))

/-- **The operations on directories and files**, on a device that does not fail: besides, no search
for a block finds the first block of its bitmap full, and no file is removed while it is open. -/
def Op.Careful (w : World) (op : Op) : Prop :=
  op.Pre w ∧ op.isCall = true ∧ op.overflows w = false ∧ op.overwrites w = false ∧
    op.removesOpen w = false ∧ op.starves w = false

instance (w : World) (op : Op) : Decidable (op.Careful w) :=
  inferInstanceAs (Decidable (_ ∧ _))

/-- When no file is open, operations on directories are among these. -/
theorem Op.Tame.careful {op : Op} (h : op.Tame w) (hclosed : ∀ n, w.opens n = 0) :
    op.Careful w := by
  obtain ⟨hpre, hns, hov, hread⟩ := h
  have hrest : op.isCall = true ∧ op.removesOpen w = false ∧ op.starves w = false := by
    cases op with
    | unlink p q ino =>
        refine ⟨rfl, ?_, rfl⟩
        rw [Op.removesOpen, hclosed]
        rfl
    | write | setSize | openFile | closeFile | device => simp [Op.isNamespace] at hns
    | _ => exact ⟨rfl, rfl, rfl⟩
  exact ⟨hpre, hrest.1, hov, hread, hrest.2.1, hrest.2.2⟩

namespace Namespace

def overwrites (s : Namespace) : Op → Bool
  | .lookup p q => (s.bound p q).any fun n => s.core n == some true
  | _ => false

def Tame (s : Namespace) (op : Op) : Prop :=
  s.Pre op ∧ op.isNamespace = true ∧ s.overflows op = false ∧ s.overwrites op = false

end Namespace

/-- **A world that stands for a tree** with the invariant. -/
structure Mirrors (w : World) (s : Namespace) : Prop extends Refines w s where
  inv : s.Inv

/-- **A world that stands for a tree** in which no file is open. -/
structure Models (w : World) (s : Namespace) : Prop extends Mirrors w s where
  closed : ∀ n, s.opens n = 0

namespace Mirrors

/-- A directory in memory, and what a name in it is bound to. -/
theorem bound_iff (h : Mirrors w s) {p : ℕ} {q : Qstr} {o : Option ℕ} {c c' : Prop}
    (hc : c ↔ c') : (w.holds S_ISDIR p = true ∧ w.boundTo p q = o ∧ c) ↔
      (s.holds S_ISDIR p ∧ s.bound p q = o ∧ c') := by
  rw [h.holds_iff, hc]
  refine and_congr_right fun hp => ?_
  rw [h.boundTo_eq h.inv hp q]

/-- **The VFS checks the same of both.** -/
theorem pre_iff (h : Mirrors w s) {op : Op} (hop : op.isCall = true) :
    op.Pre w ∧ op.removesOpen w = false ↔ s.Pre op := by
  have hdirty : ∀ n c, (w.icache n).map InCore.dirty = some c ↔ s.core n = some c := fun n c => by
    rw [h.core]
  have hnew : ∀ n, (w.icache n).map InCore.isNew = some false ↔ s.core n ≠ none := by
    intro n
    have hcore := h.core n
    cases hc : w.icache n with
    | none =>
        rw [hc] at hcore
        simp [← hcore]
    | some c =>
        rw [hc] at hcore
        simp [← hcore, h.unlocked n c hc]
  cases op with
  | lookup p q => exact (and_iff_left rfl).trans h.holds_iff
  | create p q mode => exact (and_iff_left rfl).trans (h.bound_iff Iff.rfl)
  | mkdir p q mode => exact (and_iff_left rfl).trans (h.bound_iff Iff.rfl)
  | unlink p q ino =>
      have hopen : decide (0 < w.opens ino) = false ↔ s.opens ino = 0 := by
        rw [decide_eq_false_iff_not, h.opens, Nat.pos_iff_ne_zero, not_not]
      have hkind : w.holds (fun m => !S_ISDIR m) ino = true ↔ s.holds (fun m => !S_ISDIR m) ino :=
        h.holds_iff
      refine Iff.trans ?_ (h.bound_iff (and_congr hkind hopen))
      constructor
      · rintro ⟨⟨hp, hb, hino⟩, ho⟩
        exact ⟨hp, hb, hino, ho⟩
      · rintro ⟨hp, hb, hino, ho⟩
        exact ⟨⟨hp, hb, hino⟩, ho⟩
  | rmdir p q ino => exact (and_iff_left rfl).trans (h.bound_iff h.holds_iff)
  | write n pos data copied => exact (and_iff_left rfl).trans (and_congr h.holds_iff Iff.rfl)
  | openFile n =>
      refine (and_iff_left rfl).trans ⟨fun hreg => h.holds_iff.1 hreg.1, fun hreg => ?_⟩
      -- a file has a link
      refine ⟨h.holds_iff.2 hreg, ?_⟩
      have hf : ¬s.IsDir n := hreg.not_isDir
      rw [h.inode? hreg.1, Option.map_some, h.inv.link n (h.inv.core n hreg.1) hf]
      decide
  | closeFile n =>
      refine (and_iff_left rfl).trans ?_
      rw [Op.Pre, Namespace.Pre, h.opens]
  | writeInode n => exact (and_iff_left rfl).trans (hnew n)
  | evict n =>
      have hopen : w.opens n = 0 ↔ s.opens n = 0 := by rw [h.opens]
      refine (and_iff_left rfl).trans
        ((and_congr (hdirty n false) (and_congr (hnew n) (and_congr Iff.rfl hopen))).trans ?_)
      constructor
      · rintro ⟨hd, -, hr, ho⟩
        exact ⟨hd, hr, ho⟩
      · rintro ⟨hd, hr, ho⟩
        exact ⟨hd, by rw [hd]; exact Option.some_ne_none _, hr, ho⟩
  | tick now fsuid fsgid => exact and_iff_left rfl
  | setSize | device => simp [Op.isCall] at hop

/-- The VFS makes the call of the tree too. -/
theorem careful_pre (h : Mirrors w s) {op : Op} (hop : op.Careful w) : s.Pre op :=
  (h.pre_iff hop.2.1).1 ⟨hop.1, hop.2.2.2.2.1⟩

/-- Whether an operation asks for an inode number in vain. -/
theorem overflows_eq (h : Mirrors w s) {op : Op} (hpre : s.Pre op) :
    op.overflows w = s.overflows op := by
  have hcall : ∀ p q, s.holds S_ISDIR p → (w.callsInode p q && w.inodesFull) =
      (decide (q.len ≤ 24) && (s.getFree p).isSome && (Mem.clears s.iset 32768).isEmpty) :=
    fun p q hp => by
      rw [h.callsInode_eq h.inv hp, inodesFull_eq h.held, h.iset]
  cases op with
  | create p q mode => exact hcall p q hpre.1
  | mkdir p q mode => exact hcall p q hpre.1
  | _ => rfl

/-- Whether a lookup reads an inode that was not written back. -/
theorem overwrites_eq (h : Mirrors w s) {op : Op} (hpre : s.Pre op) :
    op.overwrites w = s.overwrites op := by
  cases op with
  | lookup p q =>
      rw [Op.overwrites, Namespace.overwrites, h.boundTo_eq h.inv hpre]
      refine congrArg (fun f => (s.bound p q).any f) (funext fun n => ?_)
      rw [← h.core]
      cases w.icache n with
      | none => rfl
      | some c => cases hd : c.dirty <;> simp [hd]
  | _ => rfl

end Mirrors

namespace Models

theorem pre_iff (h : Models w s) {op : Op} (hop : op.isNamespace = true) :
    op.Pre w ↔ s.Pre op := by
  have hcall : op.isCall = true := by
    cases op with
    | setSize | device => simp [Op.isNamespace] at hop
    | _ => rfl
  refine Iff.trans ?_ (h.toMirrors.pre_iff hcall)
  refine (and_iff_left ?_).symm
  cases op with
  | unlink p q ino =>
      rw [Op.removesOpen, h.opens, h.closed]
      rfl
  | _ => rfl

/-- **What is allowed of the world is allowed of the tree**, and the other way round. -/
theorem tame_iff (h : Models w s) {op : Op} : op.Tame w ↔ s.Tame op := by
  rw [Op.Tame, Namespace.Tame]
  by_cases hop : op.isNamespace = true
  · rw [h.pre_iff hop]
    refine and_congr_right fun hpre => ?_
    rw [h.overflows_eq hpre, h.overwrites_eq hpre]
  · exact iff_of_false (fun h => hop h.2.1) fun h => hop h.2.1

end Models

/-- **A step of the driver is a step of the tree.**  It panics only for want of a block on the
device. -/
theorem Refines.step (h : Refines w s) (hinv : s.Inv) {op : Op} (hpre : s.Pre op)
    (hcall : op.isCall = true) (hov : s.overflows op = false) (hread : s.overwrites op = false)
    (hgrant : op.starves w = false) :
    wp (Yaf.step op) (fun r w' => ∃ s', s.step op = some (r, s') ∧ Refines w' s')
      (fun e => s.step op = none ∧ (e = .panic → s.strands op = true)) w := by
  have hfull : ∀ p q, s.holds S_ISDIR p →
      (decide (q.len ≤ 24) && (s.getFree p).isSome && (Mem.clears s.iset 32768).isEmpty) = false →
      (w.callsInode p q && w.inodesFull) = false := fun p q hp hov => by
    rwa [h.callsInode_eq hinv hp, inodesFull_eq h.held, h.iset]
  cases op with
  | lookup p q =>
      have hclean : ∀ n, s.bound p q = some n → s.core n ≠ some true := by
        intro n hb hc
        rw [Namespace.overwrites, hb, Option.any_some, hc] at hread
        simp at hread
      simp only [Yaf.step, wp_bind, wp_pure, Namespace.step]
      refine wp_mono (h.wp_yaf_lookup hinv hpre hclean) ?_ fun _ h => h.elim
      rintro r w' ⟨s', hs, hr⟩
      exact ⟨s', congrArg some hs, hr⟩
  | create p q mode => exact h.wp_create hinv hpre.1 (hfull p q hpre.1 hov)
  | mkdir p q mode => exact h.wp_create hinv hpre.1 (hfull p q hpre.1 hov)
  | unlink p q ino =>
      obtain ⟨hp, hb, hino, hopen⟩ := hpre
      have hfile : s.IsDir ino → ¬(s.node ino).i_nlink > 1 := by
        intro hd
        have hkind := hino.2
        rw [Bool.not_eq_true'] at hkind
        exact absurd (hd.symm.trans hkind) (by decide)
      simp only [Yaf.step, wp_bind, wp_pure, Namespace.step, yaf_unlink]
      exact wp_mono (h.wp_remove hinv hp hb hino.1 hfile hopen) (fun _ _ h => h) fun _ h => h.elim
  | rmdir p q ino =>
      obtain ⟨hp, hb, hino⟩ := hpre
      have hopen : s.opens ino = 0 := by
        by_contra hne
        exact (hinv.opened ino hne).2 hino.2
      simp only [Yaf.step, wp_bind, wp_pure, Namespace.step, yaf_rmdir]
      by_cases hlink : (s.node ino).i_nlink > 1
      · rw [if_pos hlink]
        refine Yaf.wp_remove ?_
        rw [wp_bind, wp_getInode (h.inode? hino.1), if_pos hlink, wp_pure, if_neg (by decide)]
        exact ⟨s, rfl, h⟩
      · rw [if_neg hlink]
        have hrest := wp_mono (h.wp_remove hinv hp hb hino.1 (fun _ => hlink) hopen)
          (fun _ _ h => h) fun e h => (h.elim : s.remove p q ino = none ∧
            (e = .panic → s.strands (.rmdir p q ino) = true))
        rw [remove, wp_bind] at hrest ⊢
        rw [wp_bind, wp_getInode (h.inode? hino.1), if_neg hlink]
        exact hrest
  | write n pos data copied =>
      obtain ⟨hreg, hlen, hpage, hcopied⟩ := hpre
      have hf : ¬s.IsDir n := hreg.not_isDir
      rw [Op.starves, Bool.not_eq_false'] at hgrant
      simp only [Yaf.step, wp_bind, wp_pure, Namespace.step]
      exact wp_mono (h.wp_write hinv hreg.1 hf hlen hpage hcopied hgrant) (fun _ _ h => h)
        fun _ h => h.elim
  | openFile n =>
      have hnum : w.opens n = s.opens n := congrFun h.opens n
      refine ⟨_, rfl, ?_⟩
      rw [← hnum]
      exact h.handles n (w.opens n + 1)
  | closeFile n =>
      obtain ⟨hlive, hf⟩ := hinv.opened n (Nat.pos_iff_ne_zero.1 hpre)
      have hlink : (s.node n).i_nlink ≠ 0 := by
        rw [hinv.link n hlive hf]
        decide
      have hnum : w.opens n = s.opens n := congrFun h.opens n
      have hclose := h.handles n (w.opens n - 1)
      have hput := hclose.iput_eq hlink
      simp only [Yaf.step, wp_bind, wp_modify, wp_pure, Namespace.step, wp_iput, ← hnum, hput]
      exact ⟨_, rfl, hclose⟩
  | writeInode n =>
      obtain ⟨c, hc, hnew, hnode⟩ := World.inode?_eq_some.1 (h.inode? hpre)
      have hcore : (w.icache n).map (fun c => { c with dirty := false }) =
          some ⟨s.node n, false, false⟩ := by
        rw [hc, Option.map_some, hnode, hnew]
      have hin : (w.setCore n (some ⟨s.node n, false, false⟩)).inode? n = some (s.node n) := by
        rw [World.inode?_setCore _ _ rfl, if_pos rfl]
      have hrd : (w.setCore n (some ⟨s.node n, false, false⟩)).readable .inode (INO2BID w.sb n) =
          true := World.readable_of_ioOk _ h.io _ (h.held.layout.INO2BID_lt (h.lt_of_core hpre))
      simp only [Yaf.step, Yaf.writeback, wp_bind, wp_modify, hcore, wp_yaf_write_inode hin, wp_pure,
        World.sb_setCore, hrd, if_true]
      refine ⟨_, rfl, h.of_attrs hinv (h.toTracks.writeback hpre) ?_ rfl rfl rfl fun _ _ => rfl⟩
      rw [World.view_flush (w := w.setCore n _) (h.lt_of_core hpre) hin]
      rfl
  | evict n =>
      have hlive := hinv.core n (by rw [hpre.1]; exact Option.some_ne_none _)
      refine ⟨_, rfl, h.of_attrs hinv (h.toTracks.setCore_none fun _ => h.clean n hpre.1) rfl rfl
        rfl rfl fun m _ => ?_⟩
      simp only [Function.update_apply]
      split
      · rw [‹m = n›]
        exact hinv.attrs_narrow hlive
      · rfl
  | tick now fsuid fsgid =>
      exact ⟨_, rfl, ⟨⟨⟨h.held.layout, h.held.core⟩, h.io, h.sb, h.nblk, h.opens, rfl, rfl, rfl,
        h.iset, h.dset, h.core, h.unlocked, h.node, h.clean, h.out, h.range⟩, h.shows, h.stores⟩⟩
  | setSize | device => simp [Op.isCall] at hcall

/-- **A step of a world that stands for a tree.** -/
theorem Mirrors.step (h : Mirrors w s) {op : Op} (hop : op.Careful w) :
    wp (Yaf.step op) (fun r w' => ∃ s', s.step op = some (r, s') ∧ Mirrors w' s')
      (fun e => s.step op = none ∧ (e = .panic → s.strands op = true)) w := by
  obtain ⟨hpre, hcall, hov, hread, hopen, hgrant⟩ := hop
  have hpre' := (h.pre_iff hcall).1 ⟨hpre, hopen⟩
  rw [h.overflows_eq hpre'] at hov
  rw [h.overwrites_eq hpre'] at hread
  refine wp_mono (h.toRefines.step h.inv hpre' hcall hov hread hgrant) ?_ fun _ h => h
  rintro r w' ⟨s', hs, hr⟩
  exact ⟨s', hs, hr, h.inv.step hpre' hs⟩

/-- The operations on directories open no file. -/
theorem Namespace.opens_of_step {op : Op} (hop : op.isNamespace = true) {r : Reply}
    (hs : s.step op = some (r, s')) : s'.opens = s.opens := by
  have hfree : ∀ p j s₁, s.getFree p = some (j, s₁) → s₁.opens = s.opens := by
    intro p j s₁ hg
    rw [Namespace.getFree_same hg]
  have hcreate : ∀ p q mode, s.create p q mode = some (r, s') → s'.opens = s.opens := by
    intro p q mode hs
    unfold Namespace.create at hs
    split at hs
    · obtain ⟨⟨j, s₁⟩, hg, hs⟩ := Option.bind_eq_some_iff.1 hs
      obtain ⟨n, -, hs⟩ := Option.map_eq_some_iff.1 hs
      split at hs
      · cases hs
        exact hfree p j s₁ hg
      · cases hs
        exact hfree p j s₁ hg
    · cases hs
      rfl
  have hremove : ∀ p q ino, s.remove p q ino = some (r, s') → s'.opens = s.opens := by
    intro p q ino hs
    unfold Namespace.remove at hs
    split at hs
    · obtain ⟨j, -, hs⟩ := Option.map_eq_some_iff.1 hs
      cases hs
      rfl
    · simp at hs
  cases op with
  | lookup p q =>
      obtain rfl : (s.lookup p q).2 = s' := congrArg Prod.snd (Option.some.inj hs)
      unfold Namespace.lookup
      split
      · cases s.bound p q <;> rfl
      · rfl
  | create p q mode => exact hcreate p q _ hs
  | mkdir p q mode => exact hcreate p q _ hs
  | unlink p q ino => exact hremove p q ino hs
  | rmdir p q ino =>
      simp only [Namespace.step] at hs
      split at hs
      · cases hs
        rfl
      · exact hremove p q ino hs
  | writeInode | evict | tick =>
      cases hs
      rfl
  | write | setSize | openFile | closeFile | device => simp [Op.isNamespace] at hop

/-- **A step on directories.** -/
theorem Models.step (h : Models w s) {op : Op} (hop : op.Tame w) :
    wp (Yaf.step op) (fun r w' => ∃ s', s.step op = some (r, s') ∧ Models w' s')
      (fun _ => s.step op = none) w := by
  have hclosed : ∀ n, w.opens n = 0 := by
    rw [h.opens]
    exact h.closed
  refine wp_mono (h.toMirrors.step (hop.careful hclosed)) ?_ fun _ h => h.1
  rintro r w' ⟨s', hs, hm⟩
  refine ⟨s', hs, hm, fun n => ?_⟩
  rw [Namespace.opens_of_step hop.2.1 hs]
  exact h.closed n

/-! ### Runs -/

/-- The tree of a fresh volume: an empty directory. -/
def Volume.tree (v : Volume) : Namespace where
  sb := Mkfs.counts v.bnr
  nblk := v.bnr
  iset := fun n => decide (n < 2)
  dset := fun _ => false
  node := fun _ => (Mkfs.rootInode v.uid v.gid).toMem
  core := fun n => if n = ROOT_INO then some false else none
  slot := fun _ _ => none
  bytes := fun _ _ => none
  opens := fun _ => 0
  now := v.now
  fsuid := v.uid
  fsgid := v.gid

/-- **A fresh volume stands for an empty directory.** -/
theorem Volume.models {v : Volume} (h : v.Ok) : Models v.mounted v.tree := by
  have hok := Mkfs.counts_ok h.le_bnr h.bnr_lt
  have hroot : ROOT_INO = 1 := rfl
  have hcore : ∀ n c, v.mounted.icache n = some c →
      n = ROOT_INO ∧ c = ⟨(Mkfs.rootInode v.uid v.gid).toMem, false, false⟩ := by
    intro n c hc
    by_cases hn : n = ROOT_INO
    · subst hn
      rw [Volume.mounted, World.icache_setCore_self, Option.some_inj] at hc
      exact ⟨rfl, hc.symm⟩
    · rw [Volume.mounted, World.icache_setCore_of_ne _ _ _ hn] at hc
      simp [Volume.device] at hc
  have hlive : ∀ n, v.tree.Live n ↔ n = ROOT_INO := by
    intro n
    have hset : v.tree.iset n = decide (n < 2) := rfl
    rw [Namespace.Live, hset, decide_eq_true_eq]
    omega
  have hdirty : ∀ n, v.tree.core n = if n = ROOT_INO then some false else none := fun _ => rfl
  have hnode : ∀ n, v.tree.node n = (Mkfs.rootInode v.uid v.gid).toMem := fun _ => rfl
  have hcount : ∀ n, v.tree.count n = 0 := fun n => by
    have hsize : (v.tree.node n).i_size = 0 := rfl
    rw [Namespace.count, hsize]
  have hdir : ∀ n, v.tree.IsDir n := fun n =>
    (by decide : S_ISDIR (UInt32.toUInt16 0o040777) = true)
  have hres : ∀ n k, (v.tree.node n).blk k = RESERVED_DNO := by
    intro n k
    rw [hnode, Inode.blk]
    split <;> rfl
  refine ⟨⟨⟨⟨Volume.held_mounted h, rfl, rfl, rfl, rfl, rfl, rfl, rfl,
    funext (Volume.iset_mounted h), funext (Volume.dset_mounted h), fun n => ?_, fun n c hc => ?_,
    fun n c hc => ?_, fun n hn => ?_, fun n hn hc => ?_, fun n hn => ?_⟩,
    fun p j _ _ hj => ?_, fun n off b hb => ?_⟩, ?_⟩, fun _ => rfl⟩
  · rw [hdirty]
    split
    · rw [‹n = ROOT_INO›, Volume.mounted, World.icache_setCore_self]
      rfl
    · rw [Volume.mounted, World.icache_setCore_of_ne _ _ _ ‹_›]
      rfl
  · rw [(hcore n c hc).2]
  · rw [(hcore n c hc).2]
    rfl
  · have hn' : n = ROOT_INO := by
      by_contra hne
      rw [hdirty, if_neg hne] at hn
      simp at hn
    rw [hn', Volume.slot_mounted h]
    exact Yaf_Inode.narrow_toMem.symm
  · rw [hdirty, if_pos ((hlive n).1 hn)] at hc
    simp at hc
  · have hpos : 0 < v.mounted.sb.nr_i := hok.i_pos
    rw [(hlive n).1 hn, hroot]
    omega
  · rw [hcount] at hj
    omega
  · simp [Volume.tree] at hb
  · refine ⟨hok, rfl, fun n hn => ?_, fun n hn => ?_, fun n hn => absurd rfl hn, hdir _, ?_,
      fun p j e he => ?_, fun p j e he => ?_, fun n _ _ => ⟨rfl, Nat.zero_le _, fun k _ => ?_⟩,
      fun n _ hd => absurd (hdir n) hd, fun n _ _ => ?_, fun n _ hd => absurd (hdir n) hd,
      fun n k _ hk => absurd (hres n k) hk, fun n m k l _ _ hk _ => absurd (hres n k) hk,
      fun n off b hb => ?_⟩
    · have hpos : 0 < v.tree.sb.nr_i := hok.i_pos
      rw [(hlive n).1 hn, hroot]
      omega
    · rw [hlive]
      by_contra hne
      rw [hdirty, if_neg hne] at hn
      exact hn rfl
    · exact (Forest.Tree.single ROOT_INO).congr hlive
    · simp [Volume.tree] at he
    · simp [Volume.tree] at he
    · rw [hres, hnode]
      exact ⟨fun h => absurd rfl h, fun h => absurd h (Nat.not_lt_zero _)⟩
    · rw [hcount]
      rfl
    · simp [Volume.tree] at hb

/-- **Every state of a run stands for a tree.** -/
theorem exists_models_of_run {v : Volume} (h : v.Ok) {l : List (Op × Reply)} {w : World}
    (hrun : Run step (fun w op => op.Tame w) (fresh v) l w) : ∃ s, Models w s := by
  rw [Volume.fresh_eq h] at hrun
  refine Run.invariant (I := fun w => ∃ s, Models w s) ⟨v.tree, Volume.models h⟩ ?_ hrun
  rintro w op r w' ⟨s, hs⟩ hop hr
  obtain ⟨s', -, hs'⟩ := (hs.step hop).ok hr
  exact ⟨s', hs'⟩

end Yaf
