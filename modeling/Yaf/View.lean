/-
**What a world says, and what a store changes of it.**

A mounted volume says four things: which inode numbers and which data blocks are marked, what
each inode is, and what each data block holds.  The *logical* inode of a number is the in-memory
inode when there is one, and the on-disk inode otherwise.  This module defines that view of a
world, and computes it after each of the stores the driver makes: a store changes one of the four
functions at one point.

Main definitions:

* `Yaf.Attrs` — an inode without its times;
* `Yaf.View`, `Yaf.World.view` — the four functions;
* `Yaf.World.Held` — the counts are sound, in-memory inodes are in range;
* `Yaf.World.Clean` — an in-memory inode that is not dirty agrees with its slot.

Main results:

* `Yaf.World.view_markI`, `Yaf.World.view_markD`, `Yaf.World.view_setData`,
  `Yaf.World.view_touch`, … — one store, one change.
-/

import Yaf.Inode

set_option relaxedAutoImplicit false
set_option autoImplicit false

namespace Yaf

open Prog

/-! ### Views -/

/-- What an inode is, up to its times. -/
structure Attrs where
  i_mode : UInt16
  i_uid : UInt32
  i_gid : UInt32
  i_nlink : UInt32
  i_size : ℕ
  i_block : Fin YAF_IBLOCKS → UInt32
  deriving DecidableEq

def Inode.attrs (i : Inode) : Attrs :=
  ⟨i.i_mode, i.i_uid, i.i_gid, i.i_nlink, i.i_size, i.i_block⟩

/-- Entry `k` of `i_block`; past the array it is `RESERVED_DNO`. -/
def Attrs.blk (a : Attrs) (k : ℕ) : UInt32 :=
  if h : k < YAF_IBLOCKS then a.i_block ⟨k, h⟩ else RESERVED_DNO

/-- `i_block[k] = dno`. -/
def Attrs.setBlk (a : Attrs) (k : ℕ) (dno : UInt32) : Attrs :=
  { a with i_block := fun j => if j.val = k then dno else a.i_block j }

/-- Two inodes agree in everything but their times, and in their times up to multiples of
`2 ^ 32` seconds. -/
structure Inode.Agree (i j : Inode) : Prop where
  attrs : i.attrs = j.attrs
  atime : i.i_atime % 2 ^ 32 = j.i_atime % 2 ^ 32
  mtime : i.i_mtime % 2 ^ 32 = j.i_mtime % 2 ^ 32
  ctime : i.i_ctime % 2 ^ 32 = j.i_ctime % 2 ^ 32

namespace Inode.Agree

theorem refl (i : Inode) : i.Agree i := ⟨rfl, rfl, rfl, rfl⟩

theorem trans {i j k : Inode} (h : i.Agree j) (h' : j.Agree k) : i.Agree k :=
  ⟨h.attrs.trans h'.attrs, h.atime.trans h'.atime, h.mtime.trans h'.mtime,
    h.ctime.trans h'.ctime⟩

end Inode.Agree

structure View where
  iset : ℕ → Bool
  dset : ℕ → Bool
  node : ℕ → Attrs
  data : ℕ → Block

namespace View

def setI (v : View) (n : ℕ) (b : Bool) : View := { v with iset := Function.update v.iset n b }
def setD (v : View) (d : ℕ) (b : Bool) : View := { v with dset := Function.update v.dset d b }
def setNode (v : View) (n : ℕ) (a : Attrs) : View := { v with node := Function.update v.node n a }
def setData (v : View) (d : ℕ) (b : Block) : View := { v with data := Function.update v.data d b }

section Projections

variable (v : View) (n : ℕ) (b : Bool) (a : Attrs) (blk : Block)

@[simp] theorem iset_setI : (v.setI n b).iset = Function.update v.iset n b := rfl
@[simp] theorem dset_setI : (v.setI n b).dset = v.dset := rfl
@[simp] theorem node_setI : (v.setI n b).node = v.node := rfl
@[simp] theorem data_setI : (v.setI n b).data = v.data := rfl
@[simp] theorem iset_setD : (v.setD n b).iset = v.iset := rfl
@[simp] theorem dset_setD : (v.setD n b).dset = Function.update v.dset n b := rfl
@[simp] theorem node_setD : (v.setD n b).node = v.node := rfl
@[simp] theorem data_setD : (v.setD n b).data = v.data := rfl
@[simp] theorem iset_setNode : (v.setNode n a).iset = v.iset := rfl
@[simp] theorem dset_setNode : (v.setNode n a).dset = v.dset := rfl
@[simp] theorem node_setNode : (v.setNode n a).node = Function.update v.node n a := rfl
@[simp] theorem data_setNode : (v.setNode n a).data = v.data := rfl
@[simp] theorem iset_setData : (v.setData n blk).iset = v.iset := rfl
@[simp] theorem dset_setData : (v.setData n blk).dset = v.dset := rfl
@[simp] theorem node_setData : (v.setData n blk).node = v.node := rfl
@[simp] theorem data_setData : (v.setData n blk).data = Function.update v.data n blk := rfl

end Projections

/-- Setting an inode to what it is. -/
@[simp] theorem setNode_self (v : View) (n : ℕ) : v.setNode n (v.node n) = v := by
  rw [setNode, Function.update_eq_self]

end View

namespace World

/-- The logical inode of a number. -/
def node (w : World) (n : ℕ) : Attrs :=
  match w.inode? n with
  | some i => i.attrs
  | none => if n < w.sb.nr_i * 64 then (w.slot n).toMem.attrs else Inode.blank.attrs

/-- **The view of a world.** -/
def view (w : World) : View where
  iset := fun n => decide (n < w.sb.nr_ibp * 32768) && w.ibit n
  dset := fun d => decide (d < w.sb.nr_dbp * 32768) && w.dbit d
  node := w.node
  data := fun d => w.disk (DNO2BID w.sb d)

/-- The counts are sound, and the inodes in memory are in range and of a size that fits the
on-disk field. -/
structure Held (w : World) : Prop where
  layout : w.sb.Ok w.nblk
  core : ∀ n i, w.inode? n = some i → n < w.sb.nr_i * 64 ∧ i.i_size < 2 ^ 32

/-- An in-memory inode that is not dirty agrees with its slot. -/
def Clean (w : World) : Prop :=
  ∀ n c, w.icache n = some c → c.isNew = false → c.dirty = false →
    (w.slot n).toMem.Agree c.inode

/-! ### Entries -/

end World

/-- **Narrowing and reading back** keeps everything but multiples of `2 ^ 32` seconds. -/
theorem Inode.agree_toDisk {i : Inode} (hs : i.i_size < 2 ^ 32) : i.toDisk.toMem.Agree i := by
  have htime : ∀ t : ℤ, ((UInt32.ofInt t).toNat : ℤ) % 2 ^ 32 = t % 2 ^ 32 := by
    intro t
    have hlt : (t % 2 ^ 32).toNat < 2 ^ 32 := by omega
    rw [UInt32.ofInt, UInt32.toNat_ofNat_of_lt' hlt]
    omega
  refine ⟨?_, htime _, htime _, htime _⟩
  have hmode : i.i_mode.toUInt32.toUInt16 = i.i_mode := UInt16.toUInt16_toUInt32 _
  have hsize : (UInt32.ofNat i.i_size).toNat = i.i_size := UInt32.toNat_ofNat_of_lt' hs
  simp only [Inode.attrs, Inode.toDisk, Yaf_Inode.toMem, hmode, hsize]

section Attrs

variable (i : Inode) (a : Attrs)

@[simp] theorem Inode.attrs_i_mode : i.attrs.i_mode = i.i_mode := rfl
@[simp] theorem Inode.attrs_i_nlink : i.attrs.i_nlink = i.i_nlink := rfl
@[simp] theorem Inode.attrs_i_size : i.attrs.i_size = i.i_size := rfl
@[simp] theorem Inode.attrs_blk (k : ℕ) : i.attrs.blk k = i.blk k := rfl
@[simp] theorem Inode.attrs_setTimes (t : ℤ) : (i.setTimes t).attrs = i.attrs := rfl
@[simp] theorem Inode.blk_setTimes (t : ℤ) (k : ℕ) : (i.setTimes t).blk k = i.blk k := rfl
@[simp] theorem Inode.i_size_setTimes (t : ℤ) : (i.setTimes t).i_size = i.i_size := rfl

theorem Attrs.blk_of_le {k : ℕ} (h : 8 ≤ k) : a.blk k = RESERVED_DNO := dif_neg (Nat.not_lt.2 h)

theorem Attrs.blk_setBlk {k : ℕ} (h : k < 8) (dno : UInt32) (j : ℕ) :
    (a.setBlk k dno).blk j = if j = k then dno else a.blk j := by
  unfold Attrs.blk Attrs.setBlk
  by_cases hj : j < YAF_IBLOCKS
  · simp only [dif_pos hj]
  · have hjk : j ≠ k := by
      rintro rfl
      exact hj h
    simp only [dif_neg hj, if_neg hjk]

end Attrs

namespace World

theorem iset_of_lt {w : World} {n : ℕ} (h : n < w.sb.nr_ibp * 32768) :
    w.view.iset n = w.ibit n := by
  have : w.view.iset n = (decide (n < w.sb.nr_ibp * 32768) && w.ibit n) := rfl
  rw [this, decide_eq_true h, Bool.true_and]

theorem iset_of_le {w : World} {n : ℕ} (h : w.sb.nr_ibp * 32768 ≤ n) : w.view.iset n = false := by
  have : w.view.iset n = (decide (n < w.sb.nr_ibp * 32768) && w.ibit n) := rfl
  rw [this, decide_eq_false (Nat.not_lt.2 h), Bool.false_and]

theorem dset_of_lt {w : World} {d : ℕ} (h : d < w.sb.nr_dbp * 32768) :
    w.view.dset d = w.dbit d := by
  have : w.view.dset d = (decide (d < w.sb.nr_dbp * 32768) && w.dbit d) := rfl
  rw [this, decide_eq_true h, Bool.true_and]

theorem dset_of_le {w : World} {d : ℕ} (h : w.sb.nr_dbp * 32768 ≤ d) : w.view.dset d = false := by
  have : w.view.dset d = (decide (d < w.sb.nr_dbp * 32768) && w.dbit d) := rfl
  rw [this, decide_eq_false (Nat.not_lt.2 h), Bool.false_and]

/-! ### Stores to blocks -/

section Sections

variable {w : World} {bid : ℕ} (b : Block)

theorem iset_setBlock (h : 1 + w.sb.nr_ibp ≤ bid) :
    (w.setBlock bid b).view.iset = w.view.iset := by
  funext n
  rcases Nat.lt_or_ge n (w.sb.nr_ibp * 32768) with hn | hn
  · have hne : IDXI2BID w.sb n ≠ bid := by rw [IDXI2BID_eq]; omega
    rw [iset_of_lt hn, iset_of_lt (w := w.setBlock bid b) hn, ibit, ibit, sb_setBlock,
      disk_setBlock_of_ne _ _ _ hne]
  · rw [iset_of_le hn, iset_of_le (w := w.setBlock bid b) hn]

theorem dset_setBlock (h : bid < 1 + w.sb.nr_ibp ∨ 1 + w.sb.nr_ibp + w.sb.nr_dbp ≤ bid) :
    (w.setBlock bid b).view.dset = w.view.dset := by
  funext d
  rcases Nat.lt_or_ge d (w.sb.nr_dbp * 32768) with hd | hd
  · have hne : IDXD2BID w.sb d ≠ bid := by rw [IDXD2BID_eq]; omega
    rw [dset_of_lt hd, dset_of_lt (w := w.setBlock bid b) hd, dbit, dbit, sb_setBlock,
      disk_setBlock_of_ne _ _ _ hne]
  · rw [dset_of_le hd, dset_of_le (w := w.setBlock bid b) hd]

theorem slot_setBlock {n : ℕ} (hn : n < w.sb.nr_i * 64)
    (h : bid < 1 + w.sb.nr_ibp + w.sb.nr_dbp ∨
      1 + w.sb.nr_ibp + w.sb.nr_dbp + w.sb.nr_i ≤ bid) :
    (w.setBlock bid b).slot n = w.slot n := by
  have hne : INO2BID w.sb n ≠ bid := by rw [INO2BID_eq]; omega
  simp only [slot, sb_setBlock, disk_setBlock_of_ne _ _ _ hne]

theorem node_setBlock (h : bid < 1 + w.sb.nr_ibp + w.sb.nr_dbp ∨
      1 + w.sb.nr_ibp + w.sb.nr_dbp + w.sb.nr_i ≤ bid) :
    (w.setBlock bid b).view.node = w.view.node := by
  funext n
  simp only [view, node, inode?_setBlock, sb_setBlock]
  cases w.inode? n with
  | some i => rfl
  | none =>
      refine if_ctx_congr Iff.rfl (fun hn => ?_) fun _ => rfl
      rw [slot_setBlock b hn h]

theorem data_setBlock (h : bid < 1 + w.sb.nr_ibp + w.sb.nr_dbp + w.sb.nr_i) :
    (w.setBlock bid b).view.data = w.view.data := by
  funext d
  have hne : DNO2BID w.sb d ≠ bid := by rw [DNO2BID_eq]; omega
  simp only [view, sb_setBlock, disk_setBlock_of_ne _ _ _ hne]

end Sections

/-- A store to a data block. -/
theorem view_setData (w : World) (d : ℕ) (b : Block) :
    (w.setBlock (DNO2BID w.sb d) b).view = w.view.setData d b := by
  have hbid := DNO2BID_eq w.sb d
  have hdata : (w.setBlock (DNO2BID w.sb d) b).view.data = Function.update w.view.data d b := by
    funext e
    by_cases he : e = d
    · subst he
      simp only [view, sb_setBlock, disk_setBlock_self, Function.update_self]
    · have hne : DNO2BID w.sb e ≠ DNO2BID w.sb d := by rw [DNO2BID_eq, DNO2BID_eq]; omega
      simp only [view, sb_setBlock, disk_setBlock_of_ne _ _ _ hne, Function.update_of_ne he]
  rw [View.setData, ← hdata, ← @iset_setBlock w (DNO2BID w.sb d) b (by omega),
    ← @dset_setBlock w (DNO2BID w.sb d) b (by omega),
    ← @node_setBlock w (DNO2BID w.sb d) b (by omega)]

/-- Marking an inode number. -/
theorem view_markI (w : World) {n : ℕ} (hn : n < w.sb.nr_ibp * 32768) (used : Bool) :
    (w.markI n used).view = w.view.setI n used := by
  have hbid := IDXI2BID_eq w.sb n
  have hiset : (w.markI n used).view.iset = Function.update w.view.iset n used := by
    funext m
    have hbit : (w.markI n used).ibit m = if m = n then used else w.ibit m := by
      simp only [ibit, markI, sb_setBlock]
      by_cases hb : IDXI2BID w.sb m = IDXI2BID w.sb n
      · have hiff : m % 32768 = n % 32768 ↔ m = n := by
          rw [IDXI2BID_eq, IDXI2BID_eq] at hb
          omega
        rw [hb, disk_setBlock_self]
        cases used <;> simp only [cond_true, cond_false, Mem.testBit_setBit, Mem.testBit_clearBit,
          hiff]
      · rw [disk_setBlock_of_ne _ _ _ hb, if_neg]
        rintro rfl
        exact hb rfl
    have hsb : (w.markI n used).sb = w.sb := rfl
    simp only [view, hbit, hsb]
    by_cases hm : m = n
    · subst hm
      simp [hn]
    · simp [hm]
  rw [View.setI, ← hiset]
  simp only [markI]
  rw [← @dset_setBlock w (IDXI2BID w.sb n) _ (by omega),
    ← @node_setBlock w (IDXI2BID w.sb n) _ (by omega),
    ← @data_setBlock w (IDXI2BID w.sb n) _ (by omega)]

/-- Marking a data block number. -/
theorem view_markD (w : World) {d : ℕ} (hd : d < w.sb.nr_dbp * 32768) (used : Bool) :
    (w.markD d used).view = w.view.setD d used := by
  have hbid := IDXD2BID_eq w.sb d
  have hdset : (w.markD d used).view.dset = Function.update w.view.dset d used := by
    funext m
    have hbit : (w.markD d used).dbit m = if m = d then used else w.dbit m := by
      simp only [dbit, markD, sb_setBlock]
      by_cases hb : IDXD2BID w.sb m = IDXD2BID w.sb d
      · have hiff : m % 32768 = d % 32768 ↔ m = d := by
          rw [IDXD2BID_eq, IDXD2BID_eq] at hb
          omega
        rw [hb, disk_setBlock_self]
        cases used <;> simp only [cond_true, cond_false, Mem.testBit_setBit, Mem.testBit_clearBit,
          hiff]
      · rw [disk_setBlock_of_ne _ _ _ hb, if_neg]
        rintro rfl
        exact hb rfl
    have hsb : (w.markD d used).sb = w.sb := rfl
    simp only [view, hbit, hsb]
    by_cases hm : m = d
    · subst hm
      simp [hd]
    · simp [hm]
  rw [View.setD, ← hdset]
  simp only [markD]
  rw [← @iset_setBlock w (IDXD2BID w.sb d) _ (by omega),
    ← @node_setBlock w (IDXD2BID w.sb d) _ (by omega),
    ← @data_setBlock w (IDXD2BID w.sb d) _ (by omega)]

/-! A block number that is not in range is marked in a block past the inode bitmap. -/

theorem iset_markD (w : World) (d : ℕ) (used : Bool) :
    (w.markD d used).view.iset = w.view.iset := by
  rw [markD, iset_setBlock]
  rw [IDXD2BID_eq]
  omega

/-- Clearing a bit of any block marks no data block. -/
theorem dset_clearBit {w : World} {bid nr e : ℕ}
    (h : (w.setBlock bid (Mem.clearBit (w.disk bid) nr)).view.dset e = true) :
    w.view.dset e = true := by
  rcases Nat.lt_or_ge e (w.sb.nr_dbp * 32768) with he | he
  · rw [dset_of_lt (w := w.setBlock _ _) he, dbit, sb_setBlock] at h
    rw [dset_of_lt he, dbit]
    by_cases hb : IDXD2BID w.sb e = bid
    · rw [hb, disk_setBlock_self, Mem.testBit_clearBit] at h
      rw [hb]
      split at h
      · simp at h
      · exact h
    · rwa [disk_setBlock_of_ne _ _ _ hb] at h
  · rw [dset_of_le (w := w.setBlock _ _) he] at h
    simp at h

/-- A released block is not marked any more. -/
theorem dset_markD_false {w : World} {d e : ℕ} (h : (w.markD d false).view.dset e = true) :
    w.view.dset e = true ∧ e ≠ d := by
  refine ⟨dset_clearBit h, ?_⟩
  rintro rfl
  rcases Nat.lt_or_ge e (w.sb.nr_dbp * 32768) with he | he
  · rw [view_markD w he] at h
    simp at h
  · rw [dset_of_le (w := w.markD e false) he] at h
    simp at h

/-- The other blocks stay as they are. -/
theorem dset_markD_of_ne (w : World) {d e : ℕ} (h : e ≠ d) (used : Bool) :
    (w.markD d used).view.dset e = w.view.dset e := by
  rcases Nat.lt_or_ge d (w.sb.nr_dbp * 32768) with hd | hd
  · rw [view_markD w hd, View.dset_setD, Function.update_of_ne h]
  · rw [markD, dset_setBlock]
    rw [IDXD2BID_eq]
    omega

/-! ### Changes of in-memory inodes -/

@[simp] theorem slot_setCore (w : World) (n : ℕ) (c : Option InCore) (m : ℕ) :
    (w.setCore n c).slot m = w.slot m := rfl

@[simp] theorem iset_touch (w : World) (n : ℕ) (f : Inode → Inode) :
    (w.touch n f).view.iset = w.view.iset := rfl

@[simp] theorem dset_touch (w : World) (n : ℕ) (f : Inode → Inode) :
    (w.touch n f).view.dset = w.view.dset := rfl

@[simp] theorem data_touch (w : World) (n : ℕ) (f : Inode → Inode) :
    (w.touch n f).view.data = w.view.data := rfl

/-- An in-memory inode is the logical inode of its number. -/
theorem node_of_inode? {w : World} {n : ℕ} {i : Inode} (h : w.inode? n = some i) :
    w.view.node n = i.attrs := by
  simp only [view, node, h]

/-- Without one it is the on-disk inode. -/
theorem node_of_none {w : World} {n : ℕ} (h : w.inode? n = none) (hn : n < w.sb.nr_i * 64) :
    w.view.node n = (w.slot n).toMem.attrs := by
  simp only [view, node, h]
  exact if_pos hn

theorem inode?_eq_some {w : World} {n : ℕ} {i : Inode} : w.inode? n = some i ↔
    ∃ c, w.icache n = some c ∧ c.isNew = false ∧ c.inode = i := by
  unfold inode?
  rcases w.icache n with - | ⟨j, d, - | -⟩ <;> simp

/-- An in-memory inode whose lock was released. -/
theorem inode?_setCore (w : World) (n : ℕ) {c : InCore} (hc : c.isNew = false) (m : ℕ) :
    (w.setCore n (some c)).inode? m = if m = n then some c.inode else w.inode? m := by
  by_cases hm : m = n
  · subst hm
    rw [if_pos rfl, inode?_eq_some]
    exact ⟨c, icache_setCore_self _ _ _, hc, rfl⟩
  · rw [if_neg hm, inode?, inode?, icache_setCore_of_ne _ _ _ hm]

theorem inode?_setCore_none (w : World) (n m : ℕ) :
    (w.setCore n none).inode? m = if m = n then none else w.inode? m := by
  by_cases hm : m = n
  · subst hm
    rw [if_pos rfl, inode?, icache_setCore_self]
  · rw [if_neg hm, inode?, inode?, icache_setCore_of_ne _ _ _ hm]

/-- Worlds with the same blocks have the same view, up to the in-memory inodes. -/
theorem view_congr {w w' : World} (hsb : w'.sb = w.sb) (hd : w'.disk = w.disk)
    (hn : w'.view.node = w.view.node) : w'.view = w.view := by
  have hview : ∀ w : World, w.view = ⟨w.view.iset, w.view.dset, w.view.node, w.view.data⟩ :=
    fun _ => rfl
  rw [hview w', hview w, hn]
  simp only [view, ibit, dbit, hsb, hd]

theorem view_setCore (w : World) (n : ℕ) {c : InCore} (hc : c.isNew = false) :
    (w.setCore n (some c)).view = w.view.setNode n c.inode.attrs := by
  have hnode : (w.setCore n (some c)).view.node = Function.update w.view.node n c.inode.attrs := by
    funext m
    by_cases hm : m = n
    · subst hm
      rw [Function.update_self]
      exact node_of_inode? (by rw [inode?_setCore w m hc, if_pos rfl])
    · rw [Function.update_of_ne hm]
      simp only [view, node, inode?_setCore w n hc, if_neg hm]
      rfl
  rw [View.setNode, ← hnode]
  rfl

/-- Reading an inode in. -/
theorem view_load (w : World) (n : ℕ) :
    (w.load n).view = w.view.setNode n (w.slot n).toMem.attrs := view_setCore _ _ rfl

/-- An in-memory inode that nobody holds is not there. -/
theorem inode?_lock {w : World} {n : ℕ} (h : w.icache n = none) (m : ℕ) :
    (w.lock n).inode? m = w.inode? m := by
  by_cases hm : m = n
  · subst hm
    rw [inode?, inode?, lock, icache_setCore_self, h]
    rfl
  · rw [inode?, inode?, lock, icache_setCore_of_ne _ _ _ hm]

theorem view_lock {w : World} {n : ℕ} (h : w.icache n = none) : (w.lock n).view = w.view := by
  refine view_congr rfl rfl (funext fun m => ?_)
  simp only [view, node, inode?_lock h]
  rfl

/-! ### Write-backs -/

/-- **Writing one inode back** changes no slot but its own. -/
theorem slot_flush (w : World) (n : ℕ) (i : Inode) (m : ℕ) :
    (w.flush n i).slot m = if m = n then i.toDisk else w.slot m := by
  by_cases hm : m = n
  · subst m
    rw [if_pos rfl, slot, flush, sb_setBlock, disk_setBlock_self]
    exact Yaf_Inode.read_writeSlot _ _ _
  · rw [if_neg hm, slot, slot, flush, sb_setBlock]
    by_cases hb : INO2BID w.sb m = INO2BID w.sb n
    · rw [hb, disk_setBlock_self]
      refine Yaf_Inode.read_congr fun x hx => ?_
      rw [INO2BID_eq, INO2BID_eq] at hb
      rw [Yaf_Inode.writeSlot_of_disjoint]
      rw [INO2BOFF_eq, INO2BOFF_eq]
      omega
    · rw [disk_setBlock_of_ne _ _ _ hb]

theorem view_flush {w : World} {n : ℕ} {i : Inode} (hn : n < w.sb.nr_i * 64)
    (hi : w.inode? n = some i) : (w.flush n i).view = w.view := by
  have hbid := INO2BID_eq w.sb n
  have hnode : (w.flush n i).view.node = w.view.node := by
    funext m
    have hin : (w.flush n i).inode? m = w.inode? m := rfl
    simp only [view, node, hin, slot_flush]
    by_cases hm : m = n
    · subst m
      simp only [hi]
    · simp only [if_neg hm]
      rfl
  have hview : ∀ w : World, w.view = ⟨w.view.iset, w.view.dset, w.view.node, w.view.data⟩ :=
    fun _ => rfl
  rw [hview (w.flush n i), hview w, hnode]
  simp only [flush]
  rw [iset_setBlock _ (by omega), dset_setBlock _ (by omega), data_setBlock _ (by omega)]

/-! ### What the changes keep -/

namespace Held

variable {w : World}

theorem setBlock (h : w.Held) (bid : ℕ) (b : Block) : (w.setBlock bid b).Held :=
  ⟨h.layout, h.core⟩

theorem markI (h : w.Held) (n : ℕ) (used : Bool) : (w.markI n used).Held := h.setBlock _ _

theorem markD (h : w.Held) (d : ℕ) (used : Bool) : (w.markD d used).Held := h.setBlock _ _

theorem setCore (h : w.Held) {n : ℕ} {c : InCore} (hnew : c.isNew = false)
    (hn : n < w.sb.nr_i * 64) (hs : c.inode.i_size < 2 ^ 32) : (w.setCore n (some c)).Held := by
  refine ⟨h.layout, fun m i hi => ?_⟩
  rw [inode?_setCore w n hnew] at hi
  split at hi
  · cases hi
    subst m
    exact ⟨hn, hs⟩
  · exact h.core m i hi

theorem setCore_none (h : w.Held) (n : ℕ) : (w.setCore n none).Held := by
  refine ⟨h.layout, fun m i hi => ?_⟩
  rw [inode?_setCore_none] at hi
  split at hi
  · simp at hi
  · exact h.core m i hi

theorem lt_of_inode? (h : w.Held) {n : ℕ} {i : Inode} (hi : w.inode? n = some i) :
    n < w.sb.nr_i * 64 := (h.core n i hi).1

theorem size_of_inode? (h : w.Held) {n : ℕ} {i : Inode} (hi : w.inode? n = some i) :
    i.i_size < 2 ^ 32 := (h.core n i hi).2

theorem touch (h : w.Held) {n : ℕ} {f : Inode → Inode}
    (hf : ∀ i, w.inode? n = some i → (f i).i_size < 2 ^ 32) : (w.touch n f).Held := by
  refine ⟨h.layout, fun m i' hi' => ?_⟩
  rw [inode?_touch] at hi'
  split at hi'
  · subst m
    obtain ⟨i, hi, rfl⟩ := Option.map_eq_some_iff.1 hi'
    exact ⟨h.lt_of_inode? hi, hf i hi⟩
  · exact h.core m i' hi'

theorem edit (h : w.Held) {n : ℕ} {f : Inode → Inode}
    (hf : ∀ i, w.inode? n = some i → (f i).i_size < 2 ^ 32) : (w.edit n f).Held := by
  refine ⟨h.layout, fun m i' hi' => ?_⟩
  rw [inode?_edit] at hi'
  split at hi'
  · subst m
    obtain ⟨i, hi, rfl⟩ := Option.map_eq_some_iff.1 hi'
    exact ⟨h.lt_of_inode? hi, hf i hi⟩
  · exact h.core m i' hi'

theorem load (h : w.Held) {n : ℕ} (hn : n < w.sb.nr_i * 64) : (w.load n).Held :=
  h.setCore rfl hn (UInt32.toNat_lt _)

theorem lock (h : w.Held) {n : ℕ} (hn : w.icache n = none) : (w.lock n).Held :=
  ⟨h.layout, fun m i hi => h.core m i (by rwa [inode?_lock hn] at hi)⟩

/-- First fit among the bits of the view. -/
theorem clears_ibit (h : w.Held) : Mem.clears w.ibit 32768 = Mem.clears w.view.iset 32768 := by
  have hpos := h.layout.ibp_pos
  exact Mem.clears_congr fun n hn => (iset_of_lt (by omega)).symm

theorem clears_dbit (h : w.Held) : Mem.clears w.dbit 32768 = Mem.clears w.view.dset 32768 := by
  have hpos := h.layout.dbp_pos
  exact Mem.clears_congr fun n hn => (dset_of_lt (by omega)).symm

end Held

namespace Clean

variable {w : World}

theorem setBlock (h : w.Clean) (hh : w.Held) {bid : ℕ} (b : Block)
    (hbid : bid < 1 + w.sb.nr_ibp + w.sb.nr_dbp ∨
      1 + w.sb.nr_ibp + w.sb.nr_dbp + w.sb.nr_i ≤ bid) : (w.setBlock bid b).Clean := by
  intro n c hc hn hd
  rw [slot_setBlock b (hh.lt_of_inode? (inode?_eq_some.2 ⟨c, hc, hn, rfl⟩)) hbid]
  exact h n c hc hn hd

theorem setCore (h : w.Clean) (n : ℕ) {c : InCore}
    (hc : c.isNew = false → c.dirty = false → (w.slot n).toMem.Agree c.inode) :
    (w.setCore n (some c)).Clean := by
  intro m d hd hnew hdirty
  by_cases hm : m = n
  · subst hm
    rw [icache_setCore_self, Option.some_inj] at hd
    subst hd
    exact hc hnew hdirty
  · rw [icache_setCore_of_ne _ _ _ hm] at hd
    exact h m d hd hnew hdirty

theorem setCore_none (h : w.Clean) (n : ℕ) : (w.setCore n none).Clean := by
  intro m d hd hnew hdirty
  by_cases hm : m = n
  · subst hm
    simp at hd
  · rw [icache_setCore_of_ne _ _ _ hm] at hd
    exact h m d hd hnew hdirty

theorem touch (h : w.Clean) (n : ℕ) (f : Inode → Inode) : (w.touch n f).Clean := by
  cases hc : w.icache n with
  | none => rw [World.touch, hc]; exact h.setCore_none n
  | some c =>
      rw [World.touch, hc]
      exact h.setCore n fun _ hd => by simp at hd

theorem load (h : w.Clean) (n : ℕ) : (w.load n).Clean := h.setCore n fun _ _ => .refl _

theorem lock (h : w.Clean) (n : ℕ) : (w.lock n).Clean := h.setCore n fun hn => by simp at hn

/-- An inode that was written back agrees with its slot, dirty or not. -/
theorem flush (h : w.Clean) (hh : w.Held) {n : ℕ} {i : Inode} (hi : w.inode? n = some i)
    (dirty : Bool) : ((w.setCore n (some ⟨i, dirty, false⟩)).flush n i).Clean := by
  intro m c hc hnew hdirty
  rw [slot_flush]
  have hic : (w.setCore n (some ⟨i, dirty, false⟩)).icache m = some c := hc
  by_cases hm : m = n
  · subst m
    rw [icache_setCore_self, Option.some_inj] at hic
    subst hic
    rw [if_pos rfl]
    exact Inode.agree_toDisk (hh.size_of_inode? hi)
  · rw [icache_setCore_of_ne _ _ _ hm] at hic
    rw [if_neg hm]
    exact h m c hic hnew hdirty

theorem setData (h : w.Clean) (hh : w.Held) (d : ℕ) (b : Block) :
    (w.setBlock (DNO2BID w.sb d) b).Clean :=
  h.setBlock hh b (by rw [DNO2BID_eq]; omega)

theorem markI (h : w.Clean) (hh : w.Held) {n : ℕ} (hn : n < w.sb.nr_ibp * 32768) (used : Bool) :
    (w.markI n used).Clean :=
  h.setBlock hh _ (by rw [IDXI2BID_eq]; omega)

theorem markD (h : w.Clean) (hh : w.Held) {d : ℕ} (hd : d < w.sb.nr_dbp * 32768) (used : Bool) :
    (w.markD d used).Clean :=
  h.setBlock hh _ (by rw [IDXD2BID_eq]; omega)

end Clean

end World

end Yaf
