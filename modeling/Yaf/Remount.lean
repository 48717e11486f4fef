/-
**In-memory inodes and their slots.**

An inode that is in memory is read from its slot again by `yaf_iget`, whether or not it was
modified since.  It is written to its slot by `yaf_write_inode`.  This module says what the first
loses, and that the second, done for every modified inode, loses nothing.

Main definitions:

* `Yaf.World.losesUpdate` — whether `yaf_iget` would overwrite a modified inode;
* `Yaf.remount` — every modified inode is written back, all leave the memory, and those that are
  allocated are read again;
* `Yaf.Op.sparesTable` — whether a removal keeps clear of the inode slots;
* `Yaf.Synced` — an in-memory inode that is not dirty agrees with its slot.

Main results:

* `Yaf.yaf_iget_logical_iff` — **when reading an inode changes a logical inode**;
* `Yaf.remount_of_run` — **a remount is the identity** on the logical inodes, on lookups and on
  listings.
-/

import Yaf.Dir
import Yaf.Blocks

set_option relaxedAutoImplicit false
set_option autoImplicit false

namespace Yaf

open Prog

/-! ### Reading an inode that is in memory -/

/-- Whether `yaf_iget` would overwrite an in-memory inode that differs from its slot. -/
def World.losesUpdate (w : World) (n : ℕ) : Bool :=
  match w.inode? n with
  | some i => w.readable .inode (INO2BID w.sb n) && decide ((w.slot n).toMem.attrs ≠ i.attrs)
  | none => false

/-- **Reading an inode leaves every logical inode alone** unless there is a copy in memory that
differs from the slot, and the slot can be read. -/
theorem yaf_iget_logical_iff (w : World) {n : ℕ} (hn : n < w.sb.nr_i * 64) {r : ℤ} {w' : World}
    (hr : (yaf_iget n).run w = .ok (r, w')) :
    (∀ m, w'.view.node m = w.view.node m) ↔ w.losesUpdate n = false := by
  revert hr
  suffices h : wp (yaf_iget n) (fun _ w' => (∀ m, w'.view.node m = w.view.node m) ↔
      w.losesUpdate n = false) (fun _ => True) w from fun hr => h.ok hr
  have hload : (∀ m, (w.load n).view.node m = w.view.node m) ↔
      (w.slot n).toMem.attrs = w.view.node n := by
    rw [World.view_load, View.node_setNode]
    constructor
    · intro h
      simpa using h n
    · intro h m
      rw [Function.update_apply]
      split
      · subst m
        exact h
      · rfl
  rw [wp_yaf_iget hn]
  cases hc : w.icache n with
  | some c =>
      dsimp only
      cases hnew : c.isNew with
      | true => trivial
      | false =>
          have hi : w.inode? n = some c.inode := World.inode?_eq_some.2 ⟨c, hc, hnew, rfl⟩
          rw [if_neg Bool.false_ne_true, World.losesUpdate, hi]
          dsimp only
          split
          · rw [hload, World.node_of_inode? hi, ‹w.readable _ _ = true›]
            simp
          · rw [Bool.eq_false_of_not_eq_true ‹¬w.readable _ _ = true›]
            simp
  | none =>
      have hi : w.inode? n = none := by rw [World.inode?, hc]
      rw [World.losesUpdate, hi]
      dsimp only
      split
      · split
        · rw [hload, World.node_of_none hi hn]
          simp
        · rw [World.view_lock hc]
          simp
      · simp

/-- Reading the root of a fresh volume again. -/
theorem yaf_iget_logical_small : ∃ r w',
    (yaf_iget ROOT_INO).run Volume.small.mounted = .ok (r, w') ∧
      ∀ m, w'.view.node m = Volume.small.mounted.view.node m := by
  have hok : ((yaf_iget ROOT_INO).run Volume.small.mounted).isOk = true := by decide +kernel
  have hkeep : Volume.small.mounted.losesUpdate ROOT_INO = false := by
    rw [World.losesUpdate, Volume.inode?_mounted, if_pos rfl]
    dsimp only
    rw [Volume.slot_mounted Volume.small_ok]
    simp
  have hlt : ROOT_INO < Volume.small.mounted.sb.nr_i * 64 := by decide +kernel
  generalize Volume.small.mounted = w at hok hkeep hlt ⊢
  cases hr : (yaf_iget ROOT_INO).run w with
  | error e =>
      rw [hr] at hok
      exact absurd hok Bool.false_ne_true
  | ok p => exact ⟨p.1, p.2, rfl, (yaf_iget_logical_iff _ hlt hr).2 hkeep⟩

/-- **A write changes the size of a file in memory only**: looking the file up again reverts it. -/
theorem not_logical_after_write : ∃ l w r w',
    Run step (fun w op => op.Pre w) (fresh .small) l w ∧
      w.boundTo ROOT_INO (.letters 0) = some 2 ∧ 2 < w.sb.nr_i * 64 ∧
      (yaf_iget 2).run w = .ok (r, w') ∧ w'.view.node 2 ≠ w.view.node 2 := by
  obtain ⟨l, w, hrun, hp⟩ := Volume.exists_run Volume.small_ok (fun w op => op.Pre w)
    [.create 1 (.letters 0) 0, .write 2 0 [65] 1]
    (fun _ w => decide (w.boundTo ROOT_INO (.letters 0) = some 2) && decide (2 < w.sb.nr_i * 64) &&
      ((yaf_iget 2).run w).toOption.any fun p =>
        decide (p.2.view.node 2 ≠ w.view.node 2)) (by decide +kernel)
  rw [Bool.and_eq_true, Bool.and_eq_true, decide_eq_true_eq, decide_eq_true_eq] at hp
  obtain ⟨⟨hbound, hlt⟩, hp⟩ := hp
  cases hr : (yaf_iget 2).run w with
  | ok p =>
      rw [hr] at hp
      exact ⟨l, w, p.1, p.2, hrun, hbound, hlt, hr, of_decide_eq_true hp⟩
  | error e =>
      rw [hr] at hp
      exact absurd hp Bool.false_ne_true

/-! ### Volumes in sync -/

/-- **Every in-memory inode that is not dirty agrees with its slot**, on a device that does not
fail. -/
structure Synced (w : World) : Prop where
  held : w.Held
  io : w.io = ioOk
  unlocked : ∀ n c, w.icache n = some c → c.isNew = false
  clean : w.Clean
  /-- an allocated inode has a slot -/
  range : ∀ n, w.view.iset n = true → n < w.sb.nr_i * 64

namespace Synced

variable {w w' : World}

/-- A store outside the inode bitmap and the inode slots. -/
theorem setBlock (hs : Synced w) {bid : ℕ} (b : Block) (h₁ : 1 + w.sb.nr_ibp ≤ bid)
    (h₂ : bid < 1 + w.sb.nr_ibp + w.sb.nr_dbp ∨
      1 + w.sb.nr_ibp + w.sb.nr_dbp + w.sb.nr_i ≤ bid) : Synced (w.setBlock bid b) :=
  ⟨hs.held.setBlock bid b, hs.io, hs.unlocked, hs.clean.setBlock hs.held b h₂,
    by rw [World.iset_setBlock b h₁]; exact hs.range⟩

theorem setData (hs : Synced w) (d : ℕ) (b : Block) :
    Synced (w.setBlock (DNO2BID w.sb d) b) :=
  hs.setBlock b (by rw [DNO2BID_eq]; omega) (by rw [DNO2BID_eq]; omega)

theorem setCore (hs : Synced w) {n : ℕ} {c : InCore} (hnew : c.isNew = false)
    (hh : (w.setCore n (some c)).Held)
    (hc : c.dirty = false → (w.slot n).toMem.Agree c.inode) :
    Synced (w.setCore n (some c)) := by
  refine ⟨hh, hs.io, fun m c' hc' => ?_, hs.clean.setCore n fun _ => hc, hs.range⟩
  by_cases hm : m = n
  · subst m
    rw [World.icache_setCore_self, Option.some_inj] at hc'
    rw [← hc', hnew]
  · rw [World.icache_setCore_of_ne _ _ _ hm] at hc'
    exact hs.unlocked m c' hc'

theorem setCore_none (hs : Synced w) (n : ℕ) : Synced (w.setCore n none) := by
  refine ⟨hs.held.setCore_none n, hs.io, fun m c' hc' => ?_, hs.clean.setCore_none n, hs.range⟩
  by_cases hm : m = n
  · subst m
    simp at hc'
  · rw [World.icache_setCore_of_ne _ _ _ hm] at hc'
    exact hs.unlocked m c' hc'

theorem touch (hs : Synced w) {n : ℕ} {f : Inode → Inode} (hh : (w.touch n f).Held) :
    Synced (w.touch n f) := by
  refine ⟨hh, hs.io, fun m c' hc' => ?_, hs.clean.touch n f, hs.range⟩
  rw [World.icache_touch] at hc'
  split at hc'
  · obtain ⟨c, hc, rfl⟩ := Option.map_eq_some_iff.1 hc'
    exact hs.unlocked n c hc
  · exact hs.unlocked m c' hc'

/-- Changing times, or the link count. -/
theorem touch_of_size (hs : Synced w) {n : ℕ} {f : Inode → Inode}
    (hf : ∀ i, (f i).i_size = i.i_size) : Synced (w.touch n f) :=
  hs.touch (hs.held.touch fun i hi => by rw [hf]; exact hs.held.size_of_inode? hi)

theorem load (hs : Synced w) {n : ℕ} (hn : n < w.sb.nr_i * 64) : Synced (w.load n) :=
  hs.setCore rfl (hs.held.load hn) fun _ => .refl _

theorem markI_true (hs : Synced w) {n : ℕ} (hn : n < w.sb.nr_i * 64) : Synced (w.markI n true) := by
  have hcov : n < w.sb.nr_ibp * 32768 := Nat.lt_of_lt_of_le hn hs.held.layout.ibp_covers
  refine ⟨hs.held.markI n true, hs.io, hs.unlocked, hs.clean.markI hs.held hcov true,
    fun m hm => ?_⟩
  rw [World.view_markI w hcov, View.iset_setI, Function.update_apply] at hm
  split at hm
  · subst m
    exact hn
  · exact hs.range m hm

theorem markI_false (hs : Synced w) {n : ℕ} (hn : n < w.sb.nr_i * 64) :
    Synced (w.markI n false) := by
  have hcov : n < w.sb.nr_ibp * 32768 := Nat.lt_of_lt_of_le hn hs.held.layout.ibp_covers
  refine ⟨hs.held.markI n false, hs.io, hs.unlocked, hs.clean.markI hs.held hcov false,
    fun m hm => ?_⟩
  rw [World.view_markI w hcov, View.iset_setI, Function.update_apply] at hm
  split at hm
  · simp at hm
  · exact hs.range m hm

/-- Releasing blocks whose bits lie outside the inode slots. -/
theorem unmark (hs : Synced w) {l : List ℕ} (h : ∀ d ∈ l,
    IDXD2BID w.sb d < BID_I_MIN w.sb ∨ BID_D_MIN w.sb ≤ IDXD2BID w.sb d) :
    Synced (w.unmark l) := by
  induction l generalizing w with
  | nil => exact hs
  | cons d l ih =>
      have hd := h d List.mem_cons_self
      rw [BID_I_MIN_eq, BID_D_MIN_eq] at hd
      exact ih (hs.setBlock _ (by rw [IDXD2BID_eq]; omega) hd)
        fun e he => h e (List.mem_cons_of_mem d he)

/-- The device does not fail, so no block of it is refused. -/
theorem readable (hs : Synced w) (site : Site) {bid : ℕ} (h : bid < w.nblk) :
    w.readable site bid = true := w.readable_of_ioOk hs.io site h

/-- Writing an in-memory inode back. -/
theorem flush (hs : Synced w) {n : ℕ} {i : Inode} (hi : w.inode? n = some i) (dirty : Bool) :
    Synced ((w.setCore n (some ⟨i, dirty, false⟩)).flush n i) := by
  have hn := hs.held.lt_of_inode? hi
  have hheld : (w.setCore n (some ⟨i, dirty, false⟩)).Held :=
    hs.held.setCore rfl hn (hs.held.size_of_inode? hi)
  refine ⟨hheld.setBlock _ _, hs.io, fun m c hc => ?_, hs.clean.flush hs.held hi dirty, ?_⟩
  · have hic : (w.setCore n (some ⟨i, dirty, false⟩)).icache m = some c := hc
    by_cases hm : m = n
    · subst m
      rw [World.icache_setCore_self, Option.some_inj] at hic
      rw [← hic]
    · rw [World.icache_setCore_of_ne _ _ _ hm] at hic
      exact hs.unlocked m c hic
  · have hin : (w.setCore n (some ⟨i, dirty, false⟩)).inode? n = some i := by
      rw [World.inode?_setCore _ _ rfl, if_pos rfl]
    rw [World.view_flush (w := w.setCore n (some ⟨i, dirty, false⟩)) hn hin]
    exact hs.range

end Synced

/-- **A change keeps a volume in sync.** -/
theorem Change.synced {w w' : World} (h : Change False w w') (hs : Synced w) : Synced w' := by
  have hheld := h.held hs.held
  cases h with
  | data d b => exact hs.setData d b
  | touch n f _ _ _ _ => exact hs.touch hheld
  | create n d mode dir b off q hn h₀ hlt hi hdir =>
      have hnew : Synced (w.create n d mode) :=
        (hs.markI_true hlt).setCore rfl
          ((hs.held.markI n true).setCore rfl hlt (Nat.two_pow_pos 32)) fun hd => by simp at hd
      exact (hnew.setData b _).touch hheld
  | reserve =>
      have hpos := hs.held.layout.i_pos
      exact hs.markI_true (by omega)
  | overflow h _ => exact h.elim
  | lock n _ hio => exact absurd hs.io hio
  | tick => exact ⟨hheld, hs.io, hs.unlocked, hs.clean, hs.range⟩

/-- **So do sequences of changes.** -/
theorem Changes.synced {S : Prop} {m : ℕ} {w w' : World} (h : Changes False S m w w')
    (hs : Synced w) : Synced w' := by
  induction h with
  | nil => exact hs
  | step hc _ ih => exact ih (hc.synced hs)
  | @take w _ _ n k i hi hk _ _ _ ih =>
      have htake : Synced w.takeD.2 := by
        have hpos := hs.held.layout.dbp_pos
        rcases w.takeD_cases with h | ⟨h, -⟩ | ⟨d, hd, h⟩ <;> rw [h]
        · exact hs
        · exact hs
        · have hlt := (Mem.mem_clears.1 (List.mem_of_head? hd)).1
          exact hs.setBlock _ (by rw [IDXD2BID_eq]; omega) (.inl (by rw [IDXD2BID_eq]; omega))
      exact ih (htake.touch (hs.held.take n k _))

/-! ### Steps -/

/-- A device that begins or ceases to fail. -/
def Op.isDevice : Op → Bool
  | .device _ => true
  | _ => false

/-- Whether a removal keeps clear of the inode slots: no block below the size of the inode has a
number whose bit, as `yaf_put_dblock` computes its place, lies among them. -/
def Op.sparesTable (w : World) (op : Op) : Bool :=
  match op.victim.bind w.inode? with
  | some i => (List.range 8).all fun k => decide (k * 4096 < i.i_size →
      IDXD2BID w.sb (i.blk k).toNat < BID_I_MIN w.sb ∨
        BID_D_MIN w.sb ≤ IDXD2BID w.sb (i.blk k).toNat)
  | none => true

/-- The operations of a run on a device that does not fail, in which no search for an inode number
overflows and every removal keeps clear of the inode slots. -/
def Op.Calm (w : World) (op : Op) : Prop :=
  op.Pre w ∧ op.isDevice = false ∧ op.overflows w = false ∧ op.sparesTable w = true

instance (w : World) (op : Op) : Decidable (op.Calm w) :=
  inferInstanceAs (Decidable (_ ∧ _))

section Step

variable {w : World}

theorem synced_iput (hs : Synced w) (ino : ℕ) : Synced (w.iput ino) := by
  unfold World.iput
  split
  · split
    · exact hs.setCore_none ino
    · exact hs
  · exact hs

/-- A removal that keeps clear of the inode slots. -/
theorem delete_synced (hs : Synced w) {dir ino : ℕ} (q : Qstr) {i j : Inode}
    (hi : w.inode? dir = some i) (hdir : S_ISDIR i.i_mode = true) (hj : w.inode? ino = some j)
    (hall : ∀ k < 8, k * 4096 < j.i_size → IDXD2BID w.sb (j.blk k).toNat < BID_I_MIN w.sb ∨
      BID_D_MIN w.sb ≤ IDXD2BID w.sb (j.blk k).toNat) :
    wp (yaf_delete dir q ino) (fun _ w' => Synced w') (fun _ => True) w := by
  have hunlink : ∀ d off, Synced (w.unlink dir (DNO2BID w.sb d) off) := fun d off =>
    (unlink_changes (O := False) (S := False) hs.held hi hdir d off).synced hs
  refine wp_yaf_delete_of_forall hi hj (fun _ => trivial) hs ?_ ?_
  · intro d off j' _ _
    exact (hunlink d off).touch_of_size fun _ => rfl
  · intro d off j' hj' _ hsize _ _
    obtain ⟨j₁, hj₁, -, hsz, hblk, -⟩ := inode?_unlink dir hj (DNO2BID w.sb d) off
    rw [hj', Option.some_inj] at hj₁
    subst hj₁
    have hlt := hs.held.lt_of_inode? hj
    have hfree : Synced ((w.unlink dir (DNO2BID w.sb d) off).unmark j'.sized) := by
      refine (hunlink d off).unmark fun e he => ?_
      obtain ⟨k, hk, rfl⟩ := List.mem_map.1 he
      rw [List.mem_range] at hk
      have hsame : j'.blk k = j.blk k := by simp only [Inode.blk, hblk]
      rw [hsame]
      exact hall k (by omega) (by omega)
    refine (hfree.markI_false ?_).touch_of_size fun _ => rfl
    rw [(World.unmark_consts _ _).1]
    exact hlt

/-- A creation whose search for an inode number does not overflow. -/
theorem create_synced (hs : Synced w) {dir : ℕ} (hdir : w.holds S_ISDIR dir = true) (q : Qstr)
    (mode : UInt16) (hov : (w.callsInode dir q && w.inodesFull) = false) :
    wp (_yaf_create dir q mode) (fun _ w' => Synced w') (fun _ => True) w := by
  have hno : (w.callsInode dir q = true ∧ w.inodesFull = true) = False := by
    rw [← Bool.and_eq_true, hov, Bool.false_eq_true]
  have hch := create_phased (S := False) hs.held hdir q mode
  simp only [hno] at hch
  exact wp_mono hch (fun _ _ h => h.changes.synced hs) fun _ h => h

/-- **A step of a volume in sync.** -/
theorem step_synced (hs : Synced w) {op : Op} (hop : op.Calm w) :
    wp (step op) (fun _ w' => Synced w') (fun _ => True) w := by
  obtain ⟨hpre, hdev, hov, hspare⟩ := hop
  have hspares : ∀ ino j, op.victim = some ino → w.inode? ino = some j →
      ∀ k < 8, k * 4096 < j.i_size → IDXD2BID w.sb (j.blk k).toNat < BID_I_MIN w.sb ∨
        BID_D_MIN w.sb ≤ IDXD2BID w.sb (j.blk k).toNat := by
    intro ino j hv hj k hk
    rw [Op.sparesTable, hv, Option.bind_some, hj, List.all_eq_true] at hspare
    exact of_decide_eq_true (hspare k (List.mem_range.2 hk))
  cases op with
  | lookup dir q =>
      obtain ⟨i, hi, -⟩ := World.exists_of_holds hpre
      simp only [step, wp_bind, wp_pure]
      refine wp_yaf_lookup_of_forall hi (fun _ => trivial) (fun _ => hs)
        (hs.touch_of_size fun _ => rfl) (fun n hn _ hrd => ?_)
        fun n hn => (hs.load hn).touch_of_size fun _ => rfl
      rw [hs.readable .inode (hs.held.layout.INO2BID_lt hn)] at hrd
      simp at hrd
  | create dir q mode =>
      exact create_synced hs hpre.1 q (mode ||| S_IFREG) hov
  | mkdir dir q mode =>
      exact create_synced hs hpre.1 q (mode ||| S_IFDIR) hov
  | unlink dir q ino =>
      obtain ⟨hdir, -, hfile⟩ := hpre
      obtain ⟨i, hi, hkind⟩ := World.exists_of_holds hdir
      obtain ⟨j, hj, -⟩ := World.exists_of_holds hfile
      simp only [step, wp_bind, wp_pure]
      refine wp_remove (wp_mono (delete_synced hs q hi hkind hj (hspares ino j rfl hj))
        (fun r w' h => ?_) fun _ h => h)
      split
      · exact synced_iput h ino
      · exact h
  | rmdir dir q ino =>
      obtain ⟨hdir, -, hsub⟩ := hpre
      obtain ⟨i, hi, hkind⟩ := World.exists_of_holds hdir
      obtain ⟨j, hj, -⟩ := World.exists_of_holds hsub
      simp only [step, wp_bind, wp_pure]
      refine wp_remove ?_
      rw [yaf_rmdir, wp_bind, wp_getInode hj]
      split
      · rw [wp_pure, if_neg (by decide)]
        exact hs
      · refine wp_mono (delete_synced hs q hi hkind hj (hspares ino j rfl hj))
          (fun r w' h => ?_) fun _ h => h
        split
        · exact synced_iput h ino
        · exact h
  | write ino pos data copied =>
      obtain ⟨hreg, hlen, -, hcopied⟩ := hpre
      obtain ⟨i, hi, -⟩ := World.exists_of_holds hreg
      simp only [step, wp_bind, wp_pure]
      exact wp_mono (write_phased (O := False) (S := False) hs.held hi hlen hcopied
        fun h => h.elim) (fun _ w' h => h.changes.synced hs) fun _ h => h
  | setSize ino size =>
      simp only [step, simple_setattr, wp_bind, wp_modifyInode, wp_mark_inode_dirty, wp_pure,
        World.touch_edit, id]
      refine hs.touch (hs.held.touch fun _ _ => ?_)
      exact Nat.lt_of_le_of_lt hpre.2 (by decide)
  | openFile ino => exact ⟨⟨hs.held.layout, hs.held.core⟩, hs.io, hs.unlocked, hs.clean, hs.range⟩
  | closeFile ino =>
      have hclose : Synced { w with opens := Function.update w.opens ino (w.opens ino - 1) } :=
        ⟨⟨hs.held.layout, hs.held.core⟩, hs.io, hs.unlocked, hs.clean, hs.range⟩
      exact synced_iput hclose ino
  | writeInode ino =>
      obtain ⟨⟨i, dirty, new⟩, hc, hnew⟩ := Option.map_eq_some_iff.1 hpre
      obtain rfl : new = false := hnew
      have hi : w.inode? ino = some i := World.inode?_eq_some.2 ⟨_, hc, rfl, rfl⟩
      have hin : (w.setCore ino (some ⟨i, false, false⟩)).inode? ino = some i := by
        rw [World.inode?_setCore _ _ rfl, if_pos rfl]
      simp only [step, writeback, wp_bind, wp_modify, hc, Option.map_some,
        wp_yaf_write_inode hin, wp_pure]
      split
      · exact hs.flush hi false
      · rename_i hrd
        exact absurd (hs.readable .inode (hs.held.layout.INO2BID_lt (hs.held.lt_of_inode? hi))) hrd
  | evict ino => exact hs.setCore_none ino
  | tick now fsuid fsgid =>
      exact ⟨⟨hs.held.layout, hs.held.core⟩, hs.io, hs.unlocked, hs.clean, hs.range⟩
  | device io => simp [Op.isDevice] at hdev

end Step

/-! ### Remounting -/

/-- Writing back the modified ones among `rem` inodes, from number `n` on. -/
def syncFrom : ℕ → ℕ → Driver Unit
  | 0, _ => pure ()
  | rem + 1, n => do
      match (← get).icache n with
      | some c =>
          if c.dirty then
            let _ ← writeback n
      | none => pure ()
      syncFrom rem (n + 1)

/-- Reading the allocated ones among `rem` inodes, from number `n` on. -/
def readFrom : ℕ → ℕ → Driver Unit
  | 0, _ => pure ()
  | rem + 1, n => do
      if (← get).view.iset n then
        let _ ← yaf_iget n
      readFrom rem (n + 1)

/-- **Every modified inode is written back, all leave the memory, and those that are allocated are
read again.** -/
def remount : Driver Unit := do
  let sb := (← get).sb
  syncFrom (sb.nr_i * INODES_PER_BLOCK) 0
  modify fun w => { w with icache := fun _ => none }
  readFrom (sb.nr_i * INODES_PER_BLOCK) 0

namespace World

/-- The in-memory inode of a number, or the one `yaf_iget` would make. -/
def logical (w : World) (n : ℕ) : Inode := (w.inode? n).getD (w.slot n).toMem

/-- The inode of a number, in memory. -/
def hold (w : World) (n : ℕ) : World := if (w.inode? n).isSome then w else w.load n

theorem inode?_hold (w : World) (n : ℕ) : (w.hold n).inode? n = some (w.logical n) := by
  unfold hold logical
  cases hi : w.inode? n with
  | some i =>
      rw [Option.isSome_some, if_pos rfl]
      exact hi
  | none =>
      rw [Option.isSome_none, if_neg Bool.false_ne_true, load, inode?_setCore _ _ rfl, if_pos rfl]
      rfl

/-- **The same files**: only slots of inodes in memory may differ. -/
structure SameFiles (w w' : World) : Prop where
  sb : w'.sb = w.sb
  nblk : w'.nblk = w.nblk
  view : w'.view = w.view
  core : ∀ n, w'.inode? n = w.inode? n
  slot : ∀ n, w.inode? n = none → w'.slot n = w.slot n

namespace SameFiles

variable {w w₁ w₂ : World}

theorem refl (w : World) : SameFiles w w := ⟨rfl, rfl, rfl, fun _ => rfl, fun _ _ => rfl⟩

theorem trans (h : SameFiles w w₁) (h' : SameFiles w₁ w₂) : SameFiles w w₂ :=
  ⟨h'.sb.trans h.sb, h'.nblk.trans h.nblk, h'.view.trans h.view,
    fun n => (h'.core n).trans (h.core n),
    fun n hn => (h'.slot n ((h.core n).trans hn)).trans (h.slot n hn)⟩

theorem logical (h : SameFiles w w₁) (n : ℕ) : w₁.logical n = w.logical n := by
  rw [World.logical, World.logical, h.core]
  cases hn : w.inode? n with
  | some i => rw [Option.getD_some, Option.getD_some]
  | none => rw [h.slot n hn]

end SameFiles

end World

section Remount

variable {w : World}

/-- Writing one inode back keeps the files. -/
theorem sameFiles_flush (hs : Synced w) {n : ℕ} {i : Inode} (hi : w.inode? n = some i) :
    w.SameFiles ((w.setCore n (some ⟨i, false, false⟩)).flush n i) := by
  have hin : ∀ m, (w.setCore n (some ⟨i, false, false⟩)).inode? m = w.inode? m := by
    intro m
    rw [World.inode?_setCore _ _ rfl]
    split
    · rw [‹m = n›, hi]
    · rfl
  have hn := hs.held.lt_of_inode? hi
  refine ⟨rfl, rfl, ?_, hin, fun m hm => ?_⟩
  · rw [World.view_flush (w := w.setCore n (some ⟨i, false, false⟩)) hn ((hin n).trans hi),
      World.view_setCore _ _ rfl, ← World.node_of_inode? hi, View.setNode_self]
  · rw [World.slot_flush, if_neg, World.slot_setCore]
    · rintro rfl
      rw [hi] at hm
      simp at hm

/-- **Writing back what was modified**: nothing is dirty afterwards. -/
theorem wp_syncFrom (hs : Synced w) (rem n : ℕ) :
    wp (syncFrom rem n) (fun _ w' => Synced w' ∧ w.SameFiles w' ∧
      (∀ m < n, w'.icache m = w.icache m) ∧
      ∀ m c, w'.icache m = some c → n ≤ m → m < n + rem → c.dirty = false)
      (fun _ => False) w := by
  induction rem generalizing w n with
  | zero => exact ⟨hs, .refl w, fun _ _ => rfl, fun m c _ h₁ h₂ => by omega⟩
  | succ rem ih =>
      -- number `n` is clean when the rest begins, and the rest does not touch it
      have hnext : ∀ w₁, Synced w₁ → w.SameFiles w₁ → (∀ m < n, w₁.icache m = w.icache m) →
          (∀ c, w₁.icache n = some c → c.dirty = false) →
          wp (syncFrom rem (n + 1)) (fun _ w' => Synced w' ∧ w.SameFiles w' ∧
            (∀ m < n, w'.icache m = w.icache m) ∧
            ∀ m c, w'.icache m = some c → n ≤ m → m < n + (rem + 1) → c.dirty = false)
            (fun _ => False) w₁ := by
        intro w₁ hs₁ hsame hlow hclean
        refine wp_mono (ih hs₁ (n + 1)) ?_ fun _ h => h
        rintro _ w' ⟨hs', hsame', hlow', hclean'⟩
        refine ⟨hs', hsame.trans hsame', fun m hm => (hlow' m (by omega)).trans (hlow m hm),
          fun m c hc h₁ h₂ => ?_⟩
        rcases Nat.lt_or_ge n m with hnm | hnm
        · exact hclean' m c hc hnm (by omega)
        · obtain rfl : m = n := by omega
          rw [hlow' m (by omega)] at hc
          exact hclean c hc
      rw [syncFrom, wp_bind, wp_get]
      cases hc : w.icache n with
      | none =>
          exact hnext w hs (.refl w) (fun _ _ => rfl) fun c hc' => by rw [hc] at hc'; simp at hc'
      | some c =>
          obtain ⟨i, dirty, new⟩ := c
          obtain rfl : new = false := hs.unlocked n _ hc
          dsimp only
          have hi : w.inode? n = some i := World.inode?_eq_some.2 ⟨_, hc, rfl, rfl⟩
          cases dirty with
          | false =>
              rw [if_neg Bool.false_ne_true]
              refine hnext w hs (.refl w) (fun _ _ => rfl) fun c hc' => ?_
              rw [hc, Option.some_inj] at hc'
              rw [← hc']
          | true =>
              have hin : (w.setCore n (some ⟨i, false, false⟩)).inode? n = some i := by
                rw [World.inode?_setCore _ _ rfl, if_pos rfl]
              have hrd : (w.setCore n (some ⟨i, false, false⟩)).readable .inode
                  (INO2BID w.sb n) = true :=
                hs.readable .inode (hs.held.layout.INO2BID_lt (hs.held.lt_of_inode? hi))
              simp only [if_true, wp_bind, writeback, wp_modify, hc, Option.map_some,
                wp_yaf_write_inode hin, World.sb_setCore, hrd]
              refine hnext _ (hs.flush hi false) (sameFiles_flush hs hi) (fun m hm => ?_) ?_
              · exact World.icache_setCore_of_ne _ _ _ (by omega)
              · intro c hc'
                have hself : ((w.setCore n (some ⟨i, false, false⟩)).flush n i).icache n =
                    some ⟨i, false, false⟩ := World.icache_setCore_self _ _ _
                rw [hself, Option.some_inj] at hc'
                rw [← hc']

/-- **Reading the allocated inodes**: they are what their slots say. -/
theorem wp_readFrom (hs : Synced w) (rem n : ℕ) (hle : n + rem ≤ w.sb.nr_i * 64) :
    wp (readFrom rem n) (fun _ w' => w'.sb = w.sb ∧ w'.nblk = w.nblk ∧ w'.io = w.io ∧
      w'.disk = w.disk ∧ (∀ m < n, w'.inode? m = w.inode? m) ∧
      ∀ m, n ≤ m → m < n + rem → w.view.iset m = true →
        w'.inode? m = some (w.slot m).toMem) (fun _ => False) w := by
  induction rem generalizing w n with
  | zero => exact ⟨rfl, rfl, rfl, rfl, fun _ _ => rfl, fun m h₁ h₂ => by omega⟩
  | succ rem ih =>
      rw [readFrom, wp_bind, wp_get]
      cases hset : w.view.iset n with
      | false =>
          rw [if_neg Bool.false_ne_true]
          refine wp_mono (ih hs (n + 1) (by omega)) ?_ fun _ h => h
          rintro _ w' ⟨h₁, h₂, h₃, h₄, hlow, hread⟩
          refine ⟨h₁, h₂, h₃, h₄, fun m hm => hlow m (by omega), fun m h₁ h₂ hm => ?_⟩
          rcases Nat.lt_or_ge n m with hnm | hnm
          · exact hread m hnm (by omega) hm
          · obtain rfl : m = n := by omega
            rw [hset] at hm
            simp at hm
      | true =>
          have hn := hs.range n hset
          have hrd := hs.readable .inode (hs.held.layout.INO2BID_lt hn)
          have hask : w.io .iget_locked w.disk = true := by rw [hs.io]; rfl
          have hnext : wp (readFrom rem (n + 1)) (fun _ w' => w'.sb = w.sb ∧ w'.nblk = w.nblk ∧
              w'.io = w.io ∧ w'.disk = w.disk ∧ (∀ m < n, w'.inode? m = w.inode? m) ∧
              ∀ m, n ≤ m → m < n + (rem + 1) → w.view.iset m = true →
                w'.inode? m = some (w.slot m).toMem) (fun _ => False) (w.load n) := by
            refine wp_mono (ih (hs.load hn) (n + 1) (by rw [World.load, World.sb_setCore]; omega))
              ?_ fun _ h => h
            rintro _ w' ⟨h₁, h₂, h₃, h₄, hlow, hread⟩
            refine ⟨h₁, h₂, h₃, h₄, fun m hm => ?_, fun m hm₁ hm₂ hm => ?_⟩
            · rw [hlow m (by omega), World.load, World.inode?_setCore _ _ rfl,
                if_neg (by omega)]
            · rcases Nat.lt_or_ge n m with hnm | hnm
              · exact hread m hnm (by omega) hm
              · obtain rfl : m = n := by omega
                rw [hlow m (by omega), World.load, World.inode?_setCore _ _ rfl, if_pos rfl]
          rw [if_pos rfl, wp_bind, wp_yaf_iget hn]
          cases hc : w.icache n with
          | none =>
              dsimp only
              rw [if_pos hask, if_pos hrd]
              exact hnext
          | some c =>
              dsimp only
              rw [hs.unlocked n c hc, if_neg Bool.false_ne_true, if_pos hrd]
              exact hnext

end Remount

/-! ### Lookups and listings -/

/-- **The same directory in two worlds**: size, blocks and what the blocks hold. -/
structure SameDir (w : World) (i : Inode) (w' : World) (i' : Inode) : Prop where
  sb : w'.sb = w.sb
  attrs : i'.attrs = i.attrs
  read : ∀ d, w'.readable .scan (DNO2BID w.sb d) = w.readable .scan (DNO2BID w.sb d)
  data : ∀ d, w'.disk (DNO2BID w.sb d) = w.disk (DNO2BID w.sb d)

section SameDir

variable {w w' : World} {i i' : Inode}

theorem SameDir.size (h : SameDir w i w' i') : i'.i_size = i.i_size := congrArg Attrs.i_size h.attrs

theorem SameDir.blk (h : SameDir w i w' i') (k : ℕ) : i'.blk k = i.blk k :=
  congrArg (fun a => Attrs.blk a k) h.attrs

theorem value_scanDir_succ (hit : Block → ℕ → Bool) (rem : ℕ) {doff : ℕ} (hd : doff < i.i_size)
    (hk : doff / 4096 < 8) :
    value (scanDir hit i (rem + 1) doff) w =
      let bid := DNO2BID w.sb (i.blk (doff / 4096)).toNat
      if w.readable .scan bid then
        match scanSlots hit i.i_size (w.disk bid) DENTRYS_PER_BLOCK 0 doff with
        | .inl doff => .ok (.found doff)
        | .inr doff => value (scanDir hit i rem doff) w
      else .ok .noRead := by
  have hblk : (iblock i (doff / YAF_BLOCK_SIZE)).run w = .ok (i.blk (doff / 4096), w) := by
    rw [YAF_BLOCK_SIZE_eq, iblock, dif_pos hk, Inode.blk_of_lt i hk]
    rfl
  rw [scanDir, if_pos hd, value_bind_of_ok (b := w) (t := w) rfl, value_bind_of_ok hblk]
  dsimp only
  rw [value_bind_of_ok (b := w.readable .scan (DNO2BID w.sb (i.blk (doff / 4096)).toNat))
    (t := w) rfl]
  split
  · rw [value_bind_of_ok (b := w.disk (DNO2BID w.sb (i.blk (doff / 4096)).toNat)) (t := w) rfl]
    cases scanSlots hit i.i_size (w.disk (DNO2BID w.sb (i.blk (doff / 4096)).toNat))
      DENTRYS_PER_BLOCK 0 doff <;> rfl
  · rfl

/-- A scan past the eighth block. -/
theorem value_scanDir_of_le (hit : Block → ℕ → Bool) (rem : ℕ) {doff : ℕ} (hd : doff < i.i_size)
    (hk : 8 ≤ doff / 4096) : value (scanDir hit i (rem + 1) doff) w = .error .outOfBounds := by
  have hblk : (iblock i (doff / YAF_BLOCK_SIZE)).run w = .error .outOfBounds := by
    rw [YAF_BLOCK_SIZE_eq, iblock, dif_neg (Nat.not_lt.2 hk)]
    rfl
  rw [scanDir, if_pos hd, value_bind_of_ok (b := w) (t := w) rfl, value_bind_of_error hblk]

/-- **A scan finds the same in the same directory.** -/
theorem value_scanDir_congr (h : SameDir w i w' i') (hit : Block → ℕ → Bool) (rem doff : ℕ) :
    value (scanDir hit i' rem doff) w' = value (scanDir hit i rem doff) w := by
  induction rem generalizing doff with
  | zero =>
      rw [scanDir, scanDir, h.size]
      split <;> rfl
  | succ rem ih =>
      rcases Nat.lt_or_ge doff i.i_size with hd | hd
      · have hd' : doff < i'.i_size := by rwa [h.size]
        rcases Nat.lt_or_ge (doff / 4096) 8 with hk | hk
        · rw [value_scanDir_succ hit rem hd hk, value_scanDir_succ hit rem hd' hk]
          simp only [h.sb, h.blk, h.size, h.read, h.data, ih]
        · rw [value_scanDir_of_le hit rem hd hk, value_scanDir_of_le hit rem hd' hk]
      · rw [scanDir, scanDir, h.size, if_neg (Nat.not_lt.2 hd), if_neg (Nat.not_lt.2 hd)]
        rfl

/-- **A lookup finds the same slot.** -/
theorem value_lookup_congr (h : SameDir w i w' i') {dir : ℕ} (hi : w.inode? dir = some i)
    (hi' : w'.inode? dir = some i') (q : Qstr) :
    value (_yaf_lookup dir q) w' = value (_yaf_lookup dir q) w := by
  have hscan : ∀ (w : World) (i : Inode), wp (scanDir (isNamed q) i YAF_IBLOCKS 0)
      (fun _ t => t = w) (fun _ => True) w := fun w i =>
    wp_scanDir_of_forall (Q := fun _ t => t = w) (fun _ => rfl) (fun _ => trivial) _ _
  rw [_yaf_lookup]
  split
  · rfl
  · rw [value_bind_of_ok (run_getInode hi), value_bind_of_ok (run_getInode hi'), value_bind_of_reads (hscan w i),
      value_bind_of_reads (hscan w' i'), value_scanDir_congr h]
    cases value (scanDir (isNamed q) i YAF_IBLOCKS 0) w with
    | error e => rfl
    | ok r => cases r <;> rfl

theorem value_iterDir_succ (rem : ℕ) {doff : ℕ} (ctx : DirContext) (hd : doff < i.i_size)
    (hk : doff / 4096 < 8) :
    value (iterDir i (rem + 1) doff ctx) w =
      let bid := DNO2BID w.sb (i.blk (doff / 4096)).toNat
      if w.readable .scan bid then
        let r := iterSlots i.i_size (w.disk bid)
          (DENTRYS_PER_BLOCK - doff % YAF_BLOCK_SIZE / YAF_DENTRY_SIZE) 0 doff ctx
        value (iterDir i rem r.1 r.2) w
      else .ok (none, ctx) := by
  have hblk : (iblock i (doff / YAF_BLOCK_SIZE)).run w = .ok (i.blk (doff / 4096), w) := by
    rw [YAF_BLOCK_SIZE_eq, iblock, dif_pos hk, Inode.blk_of_lt i hk]
    rfl
  rw [iterDir, if_pos hd, value_bind_of_ok (b := w) (t := w) rfl, value_bind_of_ok hblk]
  dsimp only
  rw [value_bind_of_ok (b := w.readable .scan (DNO2BID w.sb (i.blk (doff / 4096)).toNat))
    (t := w) rfl]
  split
  · rw [value_bind_of_ok (b := w.disk (DNO2BID w.sb (i.blk (doff / 4096)).toNat)) (t := w) rfl]
  · rfl

theorem value_iterDir_of_le (rem : ℕ) {doff : ℕ} (ctx : DirContext) (hd : doff < i.i_size)
    (hk : 8 ≤ doff / 4096) : value (iterDir i (rem + 1) doff ctx) w = .error .outOfBounds := by
  have hblk : (iblock i (doff / YAF_BLOCK_SIZE)).run w = .error .outOfBounds := by
    rw [YAF_BLOCK_SIZE_eq, iblock, dif_neg (Nat.not_lt.2 hk)]
    rfl
  rw [iterDir, if_pos hd, value_bind_of_ok (b := w) (t := w) rfl, value_bind_of_error hblk]

/-- The loop of a listing emits the same in the same directory. -/
theorem value_iterDir_congr (h : SameDir w i w' i') (rem doff : ℕ) (ctx : DirContext) :
    value (iterDir i' rem doff ctx) w' = value (iterDir i rem doff ctx) w := by
  induction rem generalizing doff ctx with
  | zero =>
      rw [iterDir, iterDir, h.size]
      split <;> rfl
  | succ rem ih =>
      rcases Nat.lt_or_ge doff i.i_size with hd | hd
      · have hd' : doff < i'.i_size := by rwa [h.size]
        rcases Nat.lt_or_ge (doff / 4096) 8 with hk | hk
        · rw [value_iterDir_succ rem ctx hd hk, value_iterDir_succ rem ctx hd' hk]
          simp only [h.sb, h.blk, h.size, h.read, h.data, ih]
        · rw [value_iterDir_of_le rem ctx hd hk, value_iterDir_of_le rem ctx hd' hk]
      · rw [iterDir, iterDir, h.size, if_neg (Nat.not_lt.2 hd), if_neg (Nat.not_lt.2 hd)]
        rfl

/-- Listing changes nothing. -/
theorem wp_iterDir_of_forall {Q : Option ℕ × DirContext → World → Prop} {E : Fault → Prop}
    (hQ : ∀ r, Q r w) (hE : ∀ e, E e) (rem doff : ℕ) (ctx : DirContext) :
    wp (iterDir i rem doff ctx) Q E w := by
  induction rem generalizing doff ctx with
  | zero =>
      rw [iterDir]
      split
      · exact hE _
      · exact hQ _
  | succ rem ih =>
      rw [iterDir]
      split
      · rw [wp_bind, wp_get, wp_bind]
        rcases Nat.lt_or_ge (doff / YAF_BLOCK_SIZE) 8 with hk | hk
        · rw [wp_iblock _ hk, wp_bind, wp_sb_bread]
          split
          · rw [wp_bind, wp_bData]
            exact ih _ _
          · exact hQ _
        · rw [wp_iblock_of_le _ hk]
          exact hE _
      · exact hQ _

/-- **A listing emits the same.** -/
theorem value_iterate_congr (h : SameDir w i w' i') {dir : ℕ} (hi : w.inode? dir = some i)
    (hi' : w'.inode? dir = some i') (parent : ℕ) (ctx : DirContext) :
    value (yaf_iterate_shared dir parent ctx) w' =
      value (yaf_iterate_shared dir parent ctx) w := by
  have hmode : i'.i_mode = i.i_mode := congrArg Attrs.i_mode h.attrs
  have hreads : ∀ (w : World) (i : Inode) doff ctx, wp (iterDir i YAF_IBLOCKS doff ctx)
      (fun _ t => t = w) (fun _ => True) w := fun w i doff ctx =>
    wp_iterDir_of_forall (Q := fun _ t => t = w) (fun _ => rfl) (fun _ => trivial) _ _ _
  rw [yaf_iterate_shared, value_bind_of_ok (run_getInode hi), value_bind_of_ok (run_getInode hi'),
    hmode]
  split
  · cases dir_emit_dots ctx dir parent with
    | mk ok ctx =>
        cases ok with
        | false => rfl
        | true =>
            dsimp only
            split
            · rfl
            · rw [value_bind_of_reads (hreads w i _ _), value_bind_of_reads (hreads w' i' _ _),
                value_iterDir_congr h]
              cases value (iterDir i YAF_IBLOCKS (ctx.pos - 2) ctx) w with
              | error e => rfl
              | ok r =>
                  obtain ⟨o, ctx⟩ := r
                  cases o <;> rfl
  · rfl

end SameDir

/-! ### A remount is the identity -/

section Identity

variable {w : World}

theorem World.boundTo_eq {i : Inode} {dir : ℕ} (hi : w.inode? dir = some i) (q : Qstr) :
    w.boundTo dir q = match value (_yaf_lookup dir q) w with
      | .ok doff => if doff ≥ 0 then
          some (d_ino (w.disk (DNO2BID w.sb (i.blk (doff.toNat / YAF_BLOCK_SIZE)).toNat))
            (doff.toNat % YAF_BLOCK_SIZE)).toNat
        else none
      | .error _ => none := by
  unfold World.boundTo value
  rw [hi]
  cases (_yaf_lookup dir q).run w <;> rfl

/-- An entry leads to the same number in the same directory. -/
theorem boundTo_congr {w' : World} {i i' : Inode} (h : SameDir w i w' i') {dir : ℕ}
    (hi : w.inode? dir = some i) (hi' : w'.inode? dir = some i') (q : Qstr) :
    w'.boundTo dir q = w.boundTo dir q := by
  rw [World.boundTo_eq hi, World.boundTo_eq hi', value_lookup_congr h hi hi']
  simp only [h.sb, h.blk, h.data]

/-- What a remount leaves: the logical inodes, and what directories hold. -/
theorem wp_remount (hs : Synced w) :
    wp remount (fun _ w' => ∀ n, w.view.iset n = true →
      ∃ i, w'.inode? n = some i ∧ i.Agree (w.logical n) ∧
        SameDir (w.hold n) (w.logical n) w' i) (fun _ => False) w := by
  rw [remount, wp_bind, wp_get, wp_bind]
  refine wp_mono (wp_syncFrom hs _ 0) ?_ fun _ h => h
  rintro _ w₁ ⟨hs₁, hsame, -, hclean⟩
  rw [wp_bind, wp_modify]
  set w₂ : World := { w₁ with icache := fun _ => none } with hw₂
  have hs₂ : Synced w₂ :=
    ⟨⟨hs₁.held.layout, fun n i hi => by simp [hw₂, World.inode?] at hi⟩, hs₁.io,
      fun n c hc => by simp [hw₂] at hc, fun n c hc => by simp [hw₂] at hc, hs₁.range⟩
  have hsb : w₂.sb = w.sb := hsame.sb
  refine wp_mono (wp_readFrom hs₂ (w.sb.nr_i * INODES_PER_BLOCK) 0 ?_) ?_ fun _ h => h
  · rw [hsb, INODES_PER_BLOCK_eq, Nat.zero_add]
  rintro _ w' ⟨hsb', hnblk', hio', hdisk', -, hread⟩ n hn
  have hlt : n < w.sb.nr_i * 64 := hs.range n hn
  have hn₂ : w₂.view.iset n = true := by
    have : w₁.view.iset n = true := by rw [hsame.view, hn]
    exact this
  have hin := hread n (Nat.zero_le n) (by rw [INODES_PER_BLOCK_eq]; omega) hn₂
  -- the slot agrees with the logical inode, which is not dirty any more
  have hagree : (w₁.slot n).toMem.Agree (w.logical n) := by
    rw [← hsame.logical, World.logical]
    cases hi : w₁.inode? n with
    | none => exact .refl _
    | some i =>
        obtain ⟨c, hc, hnew, rfl⟩ := World.inode?_eq_some.1 hi
        have hdirty := hclean n c hc (Nat.zero_le n) (by
          rw [INODES_PER_BLOCK_eq, Nat.zero_add]
          exact hlt)
        exact hs₁.clean n c hc hnew hdirty
  refine ⟨_, hin, hagree, ?_⟩
  have hhold : (w.hold n).sb = w.sb ∧ (w.hold n).nblk = w.nblk ∧ (w.hold n).disk = w.disk ∧
      (w.hold n).io = w.io := by
    unfold World.hold
    split <;> exact ⟨rfl, rfl, rfl, rfl⟩
  obtain ⟨h₁, h₂, h₃, h₄⟩ := hhold
  have hio : w'.io = w.io := hio'.trans (hs₂.io.trans hs.io.symm)
  have hnblk : w'.nblk = w.nblk := hnblk'.trans hsame.nblk
  refine ⟨hsb'.trans (hsb.trans h₁.symm), hagree.attrs, fun d => ?_, fun d => ?_⟩
  · rw [World.readable, World.readable, hio, hnblk, h₂, h₄, hs.io]
    rfl
  · have hdata := congrFun (congrArg View.data hsame.view) d
    simp only [World.view, hsame.sb] at hdata
    rw [hdisk', h₁, h₃]
    exact hdata

/-- Writing one inode back changes no byte of another slot. -/
theorem write_inode_other {n m : ℕ} (hne : m ≠ n) {x : ℕ} (hx : x < 64) {r : ℤ} {w' : World}
    (hr : (yaf_write_inode n).run w = .ok (r, w')) :
    w'.disk (INO2BID w.sb m) (INO2BOFF w.sb m + x) =
      w.disk (INO2BID w.sb m) (INO2BOFF w.sb m + x) := by
  have h : wp (yaf_write_inode n) (fun _ w' => w'.disk (INO2BID w.sb m) (INO2BOFF w.sb m + x) =
      w.disk (INO2BID w.sb m) (INO2BOFF w.sb m + x)) (fun _ => True) w := by
    cases hi : w.inode? n with
    | none =>
        rw [yaf_write_inode, wp_bind, wp_get, wp_bind, wp_getInode_of_none hi]
        trivial
    | some i =>
        rw [wp_yaf_write_inode hi]
        split
        · rw [World.flush]
          by_cases hb : INO2BID w.sb m = INO2BID w.sb n
          · rw [hb, World.disk_setBlock_self, Yaf_Inode.writeSlot_of_disjoint]
            rw [INO2BID_eq, INO2BID_eq] at hb
            rw [INO2BOFF_eq, INO2BOFF_eq]
            omega
          · rw [World.disk_setBlock_of_ne _ _ _ hb]
        · rfl
  exact h.ok hr

end Identity

/-- A fresh volume is in sync. -/
theorem synced_mounted {v : Volume} (h : v.Ok) : Synced v.mounted := by
  have hok := Mkfs.counts_ok h.le_bnr h.bnr_lt
  have hcore : ∀ n c, v.mounted.icache n = some c →
      n = ROOT_INO ∧ c = ⟨(Mkfs.rootInode v.uid v.gid).toMem, false, false⟩ := by
    intro n c hc
    by_cases hn : n = ROOT_INO
    · subst hn
      rw [Volume.mounted, World.icache_setCore_self, Option.some_inj] at hc
      exact ⟨rfl, hc.symm⟩
    · rw [Volume.mounted, World.icache_setCore_of_ne _ _ _ hn] at hc
      simp [Volume.device] at hc
  refine ⟨Volume.held_mounted h, rfl, fun n c hc => ?_, fun n c hc _ _ => ?_, fun n hn => ?_⟩
  · rw [(hcore n c hc).2]
  · obtain ⟨rfl, rfl⟩ := hcore n c hc
    rw [Volume.slot_mounted h]
    exact .refl _
  · rw [Volume.iset_mounted h, decide_eq_true_eq] at hn
    have hpos : 0 < v.mounted.sb.nr_i := hok.i_pos
    omega

/-- **A remount is the identity.**  In every run on a device that does not fail, in which no search
for an inode number overflows and every removal keeps clear of the inode slots: writing back every
modified inode, dropping all of them and reading the allocated ones again gives every allocated
inode the same attributes, and times modulo `2 ^ 32` seconds; every lookup and every listing gives
what it gave before; and writing one inode back changes no byte of another slot. -/
theorem remount_of_run {v : Volume} (h : v.Ok) {l : List (Op × Reply)} {w : World}
    (hrun : Run step (fun w op => op.Calm w) (fresh v) l w) :
    (∃ w', remount.run w = .ok ((), w') ∧
      (∀ n, w.view.iset n = true → ∃ i, w'.inode? n = some i ∧ i.Agree (w.logical n)) ∧
      ∀ dir, w.view.iset dir = true →
        (∀ q, value (_yaf_lookup dir q) w' = value (_yaf_lookup dir q) (w.hold dir) ∧
          w'.boundTo dir q = (w.hold dir).boundTo dir q) ∧
        ∀ parent ctx, value (yaf_iterate_shared dir parent ctx) w' =
          value (yaf_iterate_shared dir parent ctx) (w.hold dir)) ∧
    ∀ n r w', (yaf_write_inode n).run w = .ok (r, w') → ∀ m, m ≠ n → ∀ x < 64,
      w'.disk (INO2BID w.sb m) (INO2BOFF w.sb m + x) =
        w.disk (INO2BID w.sb m) (INO2BOFF w.sb m + x) := by
  rw [Volume.fresh_eq h] at hrun
  have hs : Synced w := by
    refine hrun.invariant (I := Synced) (synced_mounted h) ?_
    intro w op r w' hs hop hr
    exact (step_synced hs hop).ok hr
  obtain ⟨⟨⟩, w', hr, hall⟩ := (wp_remount hs).exists_ok
  refine ⟨⟨w', hr, fun n hn => ?_, fun dir hdir => ?_⟩,
    fun n r w' hr m hne x hx => write_inode_other hne hx hr⟩
  · obtain ⟨i, hi, hagree, -⟩ := hall n hn
    exact ⟨i, hi, hagree⟩
  · obtain ⟨i, hi, -, hsame⟩ := hall dir hdir
    exact ⟨fun q => ⟨value_lookup_congr hsame (w.inode?_hold dir) hi q,
      boundTo_congr hsame (w.inode?_hold dir) hi q⟩,
      fun parent ctx => value_iterate_congr hsame (w.inode?_hold dir) hi parent ctx⟩

/-- A file that is written, written back, and looked up. -/
theorem remount_small : ∃ l w, Run step (fun w op => op.Calm w) (fresh .small) l w ∧
    l.map Prod.snd = [(0, some 2), (3, none), (0, none), (0, none)] ∧
    ∃ w', remount.run w = .ok ((), w') ∧
      ∀ n, w.view.iset n = true → ∃ i, w'.inode? n = some i ∧ i.Agree (w.logical n) := by
  obtain ⟨l, w, hrun, hp⟩ := Volume.exists_run Volume.small_ok (fun w op => op.Calm w)
    [.create 1 (.letters 0) 0, .write 2 0 [1, 2, 3] 3, .writeInode 2, .lookup 1 (.letters 0)]
    (fun l _ => l.map Prod.snd == [(0, some 2), (3, none), (0, none), (0, none)])
    (by decide +kernel)
  obtain ⟨w', hr, hall, -⟩ := (remount_of_run Volume.small_ok hrun).1
  exact ⟨l, w, hrun, by simpa using hp, w', hr, hall⟩

/-- A device that held something at the place of inode slot 2: a file of one byte, whose first
block has the number 34306. -/
def Volume.littered : Volume where
  bnr := 64
  old := fun bid off =>
    if bid = 3 then
      Yaf_Inode.writeSlot (fun _ => 0) 128
        ⟨0o100000, 0, 0, 1, 1, 0, 0, 0, fun k => if k.val = 0 then 34306 else RESERVED_DNO⟩
        off
    else 0
  uid := 0
  gid := 0
  now := 0

theorem Volume.littered_ok : Volume.littered.Ok := ⟨le_rfl, by decide⟩

/-- **Removing a file that was read from an old slot**: the bit of block 34306 is looked for past
the data bitmap, where the mode of inode 3 is.  That inode was written back before, and is not
written again. -/
theorem not_remount_littered : ∃ l w w', Run step
    (fun w op => op.Pre w ∧ op.isDevice = false ∧ op.overflows w = false) (fresh .littered) l w ∧
    remount.run w = .ok ((), w') ∧ w.view.iset 3 = true ∧
    ¬∃ i, w'.inode? 3 = some i ∧ i.Agree (w.logical 3) := by
  obtain ⟨l, w, hrun, hp⟩ := Volume.exists_run Volume.littered_ok
    (fun w op => op.Pre w ∧ op.isDevice = false ∧ op.overflows w = false)
    [.create 1 (.letters 0) 0, .create 1 (.letters 1) 0o644, .writeInode 3,
      .lookup 1 (.letters 0), .unlink 1 (.letters 0) 2]
    (fun _ w => w.view.iset 3 && (w.logical 3).i_mode == 0o100644 &&
      match remount.run w with
      | .ok (_, w') => (w'.inode? 3).map Inode.i_mode == some 0o100640
      | .error _ => false) (by decide +kernel)
  rw [Bool.and_eq_true, Bool.and_eq_true, beq_iff_eq] at hp
  obtain ⟨⟨hset, hmode⟩, hp⟩ := hp
  split at hp
  · rename_i u w' hr
    refine ⟨l, w, w', hrun, hr, hset, ?_⟩
    rintro ⟨i, hi, hagree⟩
    have hsame : i.i_mode = (w.logical 3).i_mode := congrArg Attrs.i_mode hagree.attrs
    rw [hi, beq_iff_eq, Option.map_some, Option.some_inj, hsame, hmode] at hp
    exact absurd hp (by decide)
  · simp at hp

end Yaf
