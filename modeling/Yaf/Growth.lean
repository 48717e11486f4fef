/-
**How a directory grows.**

A directory starts empty, gets one slot at a time, and never shrinks.  A slot is appended only when
all the others are occupied, so the number of slots tells the largest number of entries there were
at one time, up to one slot that a failed creation left free.  All this holds whatever the
allocators answer, also when a block they handed out is in use elsewhere.

Main definitions:

* `Yaf.World.liveEntries` — how many slots of a directory are occupied;
* `Yaf.Quiet` — a change that leaves a directory its size and its blocks;
* `Yaf.History` — **the runs on a directory**, from when it was empty, with the largest number of
  entries so far;
* `Yaf.Grown` — the shape of a directory with a history.

Main results:

* `Yaf.create_extends` — a creation leaves the slots alone or appends one;
* `Yaf.mkdir_born` — a directory that is made has a history from then on;
* `Yaf.grown_of_history` — **the shape and the growth of a directory** in every run.
-/

import Yaf.Refine
import Yaf.Blocks

set_option relaxedAutoImplicit false
set_option autoImplicit false

namespace Yaf

open Prog

/-! ### Slots -/

namespace World

/-- Slot `j` of a directory is occupied. -/
def slotLive (w : World) (i : Inode) (j : ℕ) : Bool :=
  !isFree (w.view.data (i.blk (j / 128)).toNat) (32 * (j % 128))

/-- How many slots of a directory in memory are occupied. -/
def liveEntries (w : World) (dir : ℕ) : ℕ :=
  match w.inode? dir with
  | some i => (List.range (i.i_size / YAF_DENTRY_SIZE)).countP (w.slotLive i)
  | none => 0

theorem liveEntries_le {w : World} {dir : ℕ} {i : Inode} (hi : w.inode? dir = some i) :
    w.liveEntries dir ≤ i.i_size / YAF_DENTRY_SIZE := by
  simp only [liveEntries, hi]
  exact Nat.le_trans List.countP_le_length (List.length_range).le

/-- All slots are occupied. -/
theorem liveEntries_of_full {w : World} {dir : ℕ} {i : Inode} (hi : w.inode? dir = some i)
    (h : ∀ j < i.i_size / YAF_DENTRY_SIZE, w.slotLive i j = true) :
    w.liveEntries dir = i.i_size / YAF_DENTRY_SIZE := by
  have hall : (List.range (i.i_size / YAF_DENTRY_SIZE)).countP (w.slotLive i) =
      (List.range (i.i_size / YAF_DENTRY_SIZE)).length :=
    List.countP_eq_length.2 fun j hj => h j (List.mem_range.1 hj)
  simp only [liveEntries, hi]
  rw [hall, List.length_range]

end World

/-! ### Quiet changes -/

/-- **A change that leaves the directory `dir` its size and its blocks.** -/
structure Quiet (dir : ℕ) (w w' : World) : Prop where
  sb : w'.sb = w.sb
  nblk : w'.nblk = w.nblk
  iset : w'.view.iset dir = w.view.iset dir
  inode : ∀ i, w.inode? dir = some i → ∃ i', w'.inode? dir = some i' ∧
    i'.i_mode = i.i_mode ∧ i'.i_size = i.i_size ∧ i'.i_block = i.i_block

namespace Quiet

variable {dir : ℕ} {w w₁ w' : World}

/-- The directory does not change at all. -/
theorem of_inode? (hsb : w'.sb = w.sb) (hnblk : w'.nblk = w.nblk)
    (hiset : w'.view.iset dir = w.view.iset dir) (hi : w'.inode? dir = w.inode? dir) :
    Quiet dir w w' := by
  refine ⟨hsb, hnblk, hiset, fun i h => ⟨i, ?_, rfl, rfl, rfl⟩⟩
  rw [hi, h]

theorem refl (w : World) : Quiet dir w w := of_inode? rfl rfl rfl rfl

theorem trans (h : Quiet dir w w₁) (h' : Quiet dir w₁ w') : Quiet dir w w' := by
  refine ⟨h'.sb.trans h.sb, h'.nblk.trans h.nblk, h'.iset.trans h.iset, fun i hi => ?_⟩
  obtain ⟨i₁, hi₁, hm₁, hs₁, hb₁⟩ := h.inode i hi
  obtain ⟨i', hi', hm, hs, hb⟩ := h'.inode i₁ hi₁
  exact ⟨i', hi', hm.trans hm₁, hs.trans hs₁, hb.trans hb₁⟩

theorem setData (w : World) (d : ℕ) (b : Block) : Quiet dir w (w.setBlock (DNO2BID w.sb d) b) := by
  refine of_inode? rfl rfl ?_ rfl
  rw [World.iset_setBlock]
  rw [DNO2BID_eq]
  omega

theorem touch {n : ℕ} {f : Inode → Inode}
    (hf : n = dir → ∀ i, (f i).i_mode = i.i_mode ∧ (f i).i_size = i.i_size ∧
      (f i).i_block = i.i_block) : Quiet dir w (w.touch n f) := by
  refine ⟨rfl, rfl, rfl, fun i hi => ?_⟩
  rw [World.inode?_touch]
  split
  · rename_i h
    subst n
    rw [hi]
    exact ⟨f i, rfl, hf rfl i⟩
  · exact ⟨i, hi, rfl, rfl, rfl⟩

theorem edit_of_ne {n : ℕ} (f : Inode → Inode) (hn : n ≠ dir) : Quiet dir w (w.edit n f) := by
  refine of_inode? rfl rfl rfl ?_
  rw [World.inode?_edit, if_neg hn.symm]

theorem takeD (w : World) : Quiet dir w w.takeD.2 := by
  obtain ⟨hsb, hnblk, -⟩ := w.takeD_consts
  refine of_inode? hsb hnblk ?_ (w.inode?_takeD dir)
  rcases w.takeD_snd with h | ⟨d, h⟩
  · rw [h]
  · rw [h, World.iset_markD]

/-- A bit of another number. -/
theorem markI {n : ℕ} (hn : n ≠ dir) (used : Bool) : Quiet dir w (w.markI n used) := by
  refine of_inode? rfl rfl ?_ rfl
  rcases Nat.lt_or_ge n (w.sb.nr_ibp * 32768) with hlt | hge
  · rw [World.view_markI w hlt, View.iset_setI, Function.update_of_ne hn.symm]
  · rw [World.markI, World.iset_setBlock]
    rw [IDXI2BID_eq]
    omega

theorem unmark (w : World) (l : List ℕ) : Quiet dir w (w.unmark l) := by
  obtain ⟨hsb, hnblk, -, hic, -⟩ := w.unmark_consts l
  refine of_inode? hsb hnblk ?_ ?_
  · rw [World.iset_unmark]
  · rw [World.inode?, World.inode?, hic]

theorem lock {n : ℕ} (hn : w.icache n = none) : Quiet dir w (w.lock n) := by
  refine of_inode? rfl rfl ?_ (World.inode?_lock hn dir)
  rw [World.view_lock hn]

/-- A new inode of another number. -/
theorem create {n : ℕ} (hn : n ≠ dir) (d : Inode) (mode : UInt16) :
    Quiet dir w (w.create n d mode) := by
  refine (markI hn true).trans (of_inode? rfl rfl ?_ ?_)
  · rw [World.create, World.view_setCore _ _ rfl]
    rfl
  · rw [World.create, World.inode?_setCore _ _ rfl, if_neg hn.symm]

theorem iput {n : ℕ} (hn : n ≠ dir) : Quiet dir w (w.iput n) := by
  have hnone : Quiet dir w (w.setCore n none) := by
    refine of_inode? rfl rfl rfl ?_
    rw [World.inode?_setCore_none, if_neg hn.symm]
  rw [World.iput]
  split
  · split
    · exact hnone
    · exact refl w
  · exact refl w

end Quiet

/-! ### Creation -/

/-- The number `dir` has an inode slot, and its bit is set. -/
structure Stands (dir : ℕ) (w : World) : Prop where
  layout : w.sb.Ok w.nblk
  lt : dir < w.sb.nr_i * 64
  marked : w.view.iset dir = true

namespace Stands

variable {dir : ℕ} {w w' : World}

theorem quiet (h : Stands dir w) (hq : Quiet dir w w') : Stands dir w' := by
  refine ⟨?_, ?_, ?_⟩
  · rw [hq.sb, hq.nblk]
    exact h.layout
  · rw [hq.sb]
    exact h.lt
  · rw [hq.iset]
    exact h.marked

/-- A number that is found is another one. -/
theorem ne_of_head? (h : Stands dir w) {n : ℕ} (hn : (Mem.clears w.ibit 32768).head? = some n) :
    n ≠ dir := by
  rintro rfl
  have hset := h.marked
  have hclear := (Mem.mem_clears.1 (List.mem_of_head? hn)).2
  rcases Nat.lt_or_ge n (w.sb.nr_ibp * 32768) with hlt | hge
  · rw [World.iset_of_lt hlt, hclear] at hset
    exact Bool.false_ne_true hset
  · rw [World.iset_of_le hge] at hset
    exact Bool.false_ne_true hset

/-- So is the number made of `-ENOENT`. -/
theorem ne_noBit (h : Stands dir w) : NO_BIT.toNat ≠ dir := by
  have hnat : NO_BIT.toNat = 4294967294 := rfl
  have h₁ := h.lt
  have h₂ := h.layout.fits
  have h₃ := h.layout.nblk_lt
  omega

end Stands

section Create

variable {dir p : ℕ} {w : World} {i j : Inode}

/-- The second half of a creation changes no directory that was there. -/
theorem linkDentry_quiet (h : Stands dir w) (hj : w.inode? p = some j) (q : Qstr) (mode : UInt16)
    (doff : ℕ) :
    wp (linkDentry p q mode doff) (fun _ w' => Quiet dir w w') (fun _ => True) w := by
  rcases Nat.lt_or_ge (doff / 4096) 8 with hk | hk
  · rw [wp_linkDentry hj hk]
    split
    · refine wp_yaf_new_inode_of_forall h.layout hj (fun _ => trivial) (fun _ => .refl w) ?_ ?_ ?_ ?_
      · exact fun _ _ => .markI h.ne_noBit false
      · exact fun hn => .markI (h.ne_of_head? hn) true
      · exact fun n _ _ hc _ => .lock hc
      · intro n d hn _ _ _
        have hnew : Quiet dir w (w.create n d mode) := .create (h.ne_of_head? hn) d mode
        exact hnew.trans ((Quiet.setData (w.create n d mode) _ _).trans
          (.touch fun _ _ => ⟨rfl, rfl, rfl⟩))
    · exact .refl w
  · rw [wp_linkDentry_of_le hj hk]
    trivial

/-- A creation in another directory. -/
theorem create_quiet (h : Stands dir w) (hp : w.holds S_ISDIR p = true) (hne : p ≠ dir) (q : Qstr)
    (mode : UInt16) :
    wp (_yaf_create p q mode) (fun _ w' => Quiet dir w w') (fun _ => True) w := by
  obtain ⟨j, hj, -⟩ := World.exists_of_holds hp
  have happend : ∀ (w₁ : World) doff (dno : UInt32), Quiet dir w₁ (w₁.append p doff dno) := by
    intro w₁ doff dno
    exact (Quiet.setData w₁ _ _).trans (.touch fun he => absurd he hne)
  rw [_yaf_create]
  split
  · exact .refl w
  · rw [wp_bind]
    refine wp_mono (Q := fun _ w₁ => Quiet dir w w₁ ∧ ∃ j₁, w₁.inode? p = some j₁)
      (E := fun _ => True) ?_ ?_ fun _ h => h
    · refine wp_yaf_get_free_dentry_of_forall hj h.layout (fun _ => trivial) ?_ ?_ ?_
      · exact fun _ _ => ⟨.refl w, j, hj⟩
      · intro doff _
        obtain ⟨j₁, hj₁, -⟩ := inode?_append hj doff (j.blk (doff / 4096))
        exact ⟨happend w doff _, j₁, hj₁⟩
      · intro doff _ _
        obtain ⟨j₁, hj₁, -⟩ := inode?_append (inode?_attach hj (doff / 4096)) doff w.takeD.1
        exact ⟨(Quiet.takeD w).trans ((Quiet.edit_of_ne _ hne).trans (happend _ doff _)), j₁, hj₁⟩
    · rintro r w₁ ⟨hq, j₁, hj₁⟩
      exact wp_mono (linkDentry_quiet (h.quiet hq) hj₁ q mode _) (fun _ _ h => hq.trans h)
        fun _ h => h

/-- Slots `s` and `t` of a directory are the same place on the device. -/
def SameSlot (i : Inode) (s t : ℕ) : Prop := i.blk (s / 128) = i.blk (t / 128) ∧ s % 128 = t % 128

/-- **One slot more** in a directory all of whose slots were occupied. -/
structure Appended (dir : ℕ) (w : World) (i : Inode) (w' : World) : Prop where
  full : ∀ s < i.i_size / 32, w.slotLive i s = true
  sb : w'.sb = w.sb
  nblk : w'.nblk = w.nblk
  iset : w'.view.iset dir = w.view.iset dir
  inode : ∃ i', w'.inode? dir = some i' ∧ i'.i_mode = i.i_mode ∧ i'.i_size = i.i_size + 32 ∧
    i'.DirShape

theorem Appended.quiet {w₁ w' : World} (h : Appended dir w i w₁) (hq : Quiet dir w₁ w') :
    Appended dir w i w' := by
  refine ⟨h.full, hq.sb.trans h.sb, hq.nblk.trans h.nblk, hq.iset.trans h.iset, ?_⟩
  obtain ⟨i₁, hi₁, hm₁, hs₁, hshape⟩ := h.inode
  obtain ⟨i', hi', hm, hs, hb⟩ := hq.inode i₁ hi₁
  exact ⟨i', hi', hm.trans hm₁, hs.trans hs₁,
    Namespace.dirShape_congr hs (fun k => by rw [Inode.blk, Inode.blk, hb]) hshape⟩

theorem Appended.stands {w' : World} (h : Appended dir w i w') (hs : Stands dir w) :
    Stands dir w' := by
  refine ⟨?_, ?_, ?_⟩
  · rw [h.sb, h.nblk]
    exact hs.layout
  · rw [h.sb]
    exact hs.lt
  · rw [h.iset]
    exact hs.marked

/-- The data of a directory with one slot more. -/
theorem data_append (w : World) (dir doff : ℕ) (dno : UInt32) :
    (w.append dir doff dno).view.data = Function.update w.view.data dno.toNat
      (Mem.wr32 (w.view.data dno.toNat) (doff % 4096) RESERVED_INO) := by
  rw [World.append, World.data_touch, World.view_setData]
  rfl

/-- A slot freed in a block leaves the other slots of the block as they are. -/
theorem isFree_wr32_of_ne (b : Block) {s t : ℕ} (h : s ≠ t) :
    isFree (Mem.wr32 b (32 * t) RESERVED_INO) (32 * s) = isFree b (32 * s) := by
  have hino : d_ino (Mem.wr32 b (32 * t) RESERVED_INO) (32 * s) = d_ino b (32 * s) :=
    Mem.rd32_congr fun k hk => free_of_disjoint b (by omega)
  rw [isFree, isFree, hino]

/-- After a slot was appended, the others are occupied as before. -/
theorem slotLive_append (dir : ℕ) {w : World} {i i' : Inode} {m : ℕ}
    (hlive : ∀ s < m, w.slotLive i' s = true)
    (hblk : i'.blk (m / 128) = i.blk (m / 128)) {s : ℕ} (hs : s < m) :
    (w.append dir (32 * m) (i.blk (m / 128))).slotLive i' s = true ∨ SameSlot i' s m := by
  by_cases hsame : SameSlot i' s m
  · exact .inr hsame
  refine .inl ?_
  have hold := hlive s hs
  rw [World.slotLive, data_append, Function.update_apply]
  rw [World.slotLive] at hold
  split
  · rename_i hd
    have hmod : 32 * m % 4096 = 32 * (m % 128) := by omega
    have hb : i'.blk (s / 128) = i'.blk (m / 128) := by
      rw [hblk]
      exact UInt32.toNat_inj.1 hd
    rw [hmod, isFree_wr32_of_ne _ fun he => hsame ⟨hb, he⟩, ← hblk, ← hb]
    exact hold
  · exact hold

/-- A directory with one slot more, and a block more where that is needed. -/
theorem dirShape_grow {i' : Inode} (h : i.DirShape) (hs : i'.i_size = i.i_size + 32)
    (hroom : i.i_size ≠ 32768)
    (hblk : ∀ k < 8, i'.blk k ≠ RESERVED_DNO ↔ i.blk k ≠ RESERVED_DNO ∨ k * 4096 = i.i_size) :
    i'.DirShape := by
  have hle := h.le
  have hsl := h.slots
  refine ⟨by omega, by omega, fun k hk => ?_⟩
  rw [hblk k hk, h.dense k hk]
  omega

/-- **The search for a free slot** finds one, or appends one. -/
theorem get_free_appends (hok : w.sb.Ok w.nblk) (hi : w.inode? dir = some i) (h : i.DirShape) :
    wp (yaf_get_free_dentry dir) (fun r w₁ => w₁ = w ∨ Appended dir w i w₁ ∧ r = i.i_size ∧
      ∀ i', w₁.inode? dir = some i' → ∀ s < i.i_size / 32,
        w₁.slotLive i' s = true ∨ SameSlot i' s (i.i_size / 32)) (fun _ => True) w := by
  have hle := h.le
  have hsl := h.slots
  set m := i.i_size / 32 with hm
  have hsize : i.i_size = 32 * m := by omega
  have hnext : m % 128 = 0 → i.blk (m / 128) = RESERVED_DNO := by
    intro halign
    by_contra hne
    rcases Nat.lt_or_ge (m / 128) 8 with hk | hk
    · have hlt := (h.dense _ hk).1 hne
      omega
    · exact hne (i.blk_of_le hk)
  refine wp_yaf_get_free_dentry hi hok hsize (by omega) hnext (fun _ => .inl rfl) ?_
  cases hf : (List.range m).find? fun j =>
      isFree (w.disk (DNO2BID w.sb (i.blk (j / 128)).toNat)) (32 * (j % 128)) with
  | some j => exact .inl rfl
  | none =>
      have hfull : ∀ s < m, w.slotLive i s = true := by
        intro s hs
        have hno := List.find?_eq_none.1 hf s (List.mem_range.2 hs)
        rw [World.slotLive, Bool.not_eq_true']
        exact Bool.eq_false_of_not_eq_true hno
      dsimp only
      split
      · exact .inl rfl
      rename_i hroom
      have hsub : m / 128 < 8 := by omega
      split
      · rename_i halign
        split
        · -- a block is attached first
          set d := w.takeD.1 with hd
          set i₁ : Inode := ({ i.setBlk (m / 128) d with i_size := 32 * m + 32 } :
            Inode).setTimes (w.attach dir (m / 128)).now with hi₁
          have hinode : ((w.attach dir (m / 128)).append dir (32 * m) d).inode? dir = some i₁ :=
            inode?_append_eq (inode?_attach hi _) _ _
          have hblk : ∀ k, i₁.blk k = if k = m / 128 then d else i.blk k :=
            fun k => blk_setBlk i hsub d k
          have hq : Quiet dir w w.takeD.2 := .takeD w
          refine .inr ⟨⟨hfull, hq.sb, hq.nblk, ?_, i₁, hinode, rfl, ?_, ?_⟩, ?_, ?_⟩
          · rw [iset_append, World.attach]
            exact hq.iset
          · rw [hsize]
            rfl
          · refine dirShape_grow h ?_ (by omega) fun k hk => ?_
            · rw [hsize]
              rfl
            · rw [hblk]
              split
              · rename_i hkm
                exact iff_of_true w.takeD_fst_ne (.inr (by omega))
              · exact (or_iff_left (by omega)).symm
          · rw [hsize]
          · intro i' hi' s hs
            rw [hinode, Option.some_inj] at hi'
            subst hi'
            have hnew : (i.setBlk (m / 128) d).blk (m / 128) = d := by
              rw [blk_setBlk i hsub, if_pos rfl]
            have hdata : (w.attach dir (m / 128)).view.data = w.view.data := data_takeD hok
            have hlive : ∀ s < m, (w.attach dir (m / 128)).slotLive i₁ s = true := by
              intro s hs
              rw [World.slotLive, hdata, hblk, if_neg (by omega)]
              exact hfull s hs
            have := slotLive_append dir (i := i.setBlk (m / 128) d) hlive
              (by rw [hblk, if_pos rfl, hnew]) hs
            rwa [hnew] at this
        · trivial
      · rename_i halign
        split
        · set i₁ : Inode := ({ i with i_size := 32 * m + 32 } : Inode).setTimes w.now with hi₁
          have hinode : (w.append dir (32 * m) (i.blk (m / 128))).inode? dir = some i₁ :=
            inode?_append_eq hi _ _
          refine .inr ⟨⟨hfull, rfl, rfl, ?_, i₁, hinode, rfl, ?_, ?_⟩, ?_, ?_⟩
          · rw [iset_append]
          · rw [hsize]
            rfl
          · refine dirShape_grow h ?_ (by omega) fun k hk => ?_
            · rw [hsize]
              rfl
            · exact (or_iff_left (by omega)).symm
          · rw [hsize]
          · intro i' hi' s hs
            rw [hinode, Option.some_inj] at hi'
            subst hi'
            exact slotLive_append dir hfull rfl hs
        · trivial

/-- The slots of a block after one of them was filled in. -/
theorem isFree_fillDentry (b : Block) {n : ℕ} (hn : n < 2 ^ 32) (h₀ : n ≠ 0) {q : Qstr}
    (hlen : q.len ≤ 24) (s t : ℕ) :
    isFree (fillDentry b (32 * t) (UInt32.ofNat n) q) (32 * s) =
      (decide (s ≠ t) && isFree b (32 * s)) := by
  by_cases hst : s = t
  · subst s
    rw [(entry_fillDentry b (32 * t) hn h₀ hlen).isFree_eq]
    simp
  · have hino : d_ino (fillDentry b (32 * t) (UInt32.ofNat n) q) (32 * s) = d_ino b (32 * s) :=
      Mem.rd32_congr fun k hk => fillDentry_of_disjoint b _ q (by omega)
    rw [isFree, isFree, hino, decide_eq_true hst, Bool.true_and]

/-- **A creation that succeeds** fills its slot in, and leaves the others occupied. -/
theorem linkDentry_fills (h : Stands dir w) (hi : w.inode? dir = some i) {q : Qstr}
    (hlen : q.len ≤ 24) (mode : UInt16) {m : ℕ} (hm : m < 1024) :
    wp (linkDentry dir q mode (32 * m)) (fun r w' => r.2 ≠ none → ∀ i', w'.inode? dir = some i' →
      ∀ s, w.slotLive i s = true ∨ SameSlot i s m → w'.slotLive i' s = true)
      (fun _ => True) w := by
  have hdiv : 32 * m / 4096 = m / 128 := by omega
  have hmod : 32 * m % 4096 = 32 * (m % 128) := by omega
  rw [wp_linkDentry hi (by omega), hdiv, hmod]
  split
  · refine wp_yaf_new_inode_of_forall h.layout hi (fun _ => trivial)
      (fun _ hno => absurd rfl hno) (fun _ _ hno => absurd rfl hno) (fun _ hno => absurd rfl hno)
      (fun _ _ _ _ _ hno => absurd rfl hno) ?_
    intro n d hn h₀ hlt _ _ i' hi' s hs
    have h₁ := h.layout.fits
    have h₂ := h.layout.nblk_lt
    have hcover := h.layout.ibp_covers
    have hne := h.ne_of_head? hn
    -- the new inode is another one, so the directory has the blocks it had
    have hblk : ∀ k, i'.blk k = i.blk k := by
      intro k
      have hcreate : (w.create n d mode).inode? dir = some i := by
        rw [World.create, World.inode?_setCore _ _ rfl, if_neg hne.symm]
        exact hi
      rw [World.link, World.inode?_touch, if_pos rfl, World.inode?_setBlock, hcreate] at hi'
      cases hi'
      rfl
    have hdata : ((w.create n d mode).link dir (DNO2BID w.sb (i.blk (m / 128)).toNat)
        (32 * (m % 128)) n q).view.data = Function.update w.view.data (i.blk (m / 128)).toNat
          (fillDentry (w.view.data (i.blk (m / 128)).toNat) (32 * (m % 128)) (UInt32.ofNat n)
            q) := by
      have hsb : (w.create n d mode).sb = w.sb := rfl
      have hview := World.view_create w (n := n) (by omega) d mode
      have hsame : (w.create n d mode).view.data = w.view.data := by
        rw [hview]
        rfl
      have hold : (w.create n d mode).disk (DNO2BID (w.create n d mode).sb
          (i.blk (m / 128)).toNat) = w.view.data (i.blk (m / 128)).toNat := congrFun hsame _
      rw [World.link, World.data_touch, ← hsb, World.view_setData, View.data_setData, hsame, hold]
    rw [World.slotLive, hblk, hdata, Function.update_apply]
    split
    · rename_i hb
      rw [isFree_fillDentry _ (by omega) h₀ hlen]
      rcases hs with hs | hs
      · rw [World.slotLive, hb] at hs
        rw [Bool.not_eq_true'] at hs ⊢
        rw [hs, Bool.and_false]
      · rw [decide_eq_false (not_not.2 hs.2)]
        rfl
    · rename_i hb
      rcases hs with hs | hs
      · exact hs
      · exact absurd (congrArg UInt32.toNat hs.1) hb
  · exact fun hno => absurd rfl hno

/-- **A creation leaves the slots alone or appends one**, and then all are occupied if it
succeeds. -/
theorem create_extends (h : Stands dir w) (hi : w.inode? dir = some i) (hshape : i.DirShape)
    (q : Qstr) (mode : UInt16) :
    wp (_yaf_create dir q mode) (fun r w' => Quiet dir w w' ∨ Appended dir w i w' ∧
      q.len ≤ 24 ∧ (r.2 ≠ none → ∀ i', w'.inode? dir = some i' → ∀ s < i'.i_size / 32,
        w'.slotLive i' s = true)) (fun _ => True) w := by
  rw [_yaf_create]
  split
  · exact .inl (.refl w)
  rename_i hlen
  rw [YAF_DENTRY_NAME_LEN_eq, Nat.not_lt] at hlen
  rw [wp_bind]
  refine wp_mono (get_free_appends h.layout hi hshape) ?_ fun _ h => h
  rintro r w₁ (rfl | ⟨happ, rfl, hlive⟩)
  · exact wp_mono (linkDentry_quiet h hi q mode _) (fun _ _ hq => .inl hq) fun _ h => h
  -- a slot was appended at the end
  obtain ⟨i₁, hi₁, -, hsize₁, hshape₁⟩ := happ.inode
  have hsl := hshape.slots
  have hle := hshape₁.le
  have h₁ : Stands dir w₁ := happ.stands h
  have hoff : ((i.i_size : ℤ) % 2 ^ 64).toNat = 32 * (i.i_size / 32) := by omega
  rw [hoff]
  refine wp_mono (wp_and (linkDentry_quiet h₁ hi₁ q mode _)
    (linkDentry_fills h₁ hi₁ hlen mode (by omega))) ?_ fun _ _ => trivial
  rintro r w' ⟨hq, hfill⟩
  refine .inr ⟨happ.quiet hq, hlen, fun hok i' hi' s hs => hfill hok i' hi' s ?_⟩
  obtain ⟨i₂, hi₂, -, hsize₂, -⟩ := hq.inode i₁ hi₁
  rw [hi', Option.some_inj] at hi₂
  subst hi₂
  rw [hsize₂, hsize₁] at hs
  rcases Nat.lt_or_ge s (i.i_size / 32) with hlt | hge
  · exact hlive i₁ hi₁ s hlt
  · have he : s = i.i_size / 32 := by omega
    rw [he]
    exact .inr ⟨rfl, rfl⟩

end Create

/-! ### Other operations -/

section Step

variable {dir : ℕ} {w : World} {i : Inode}

/-- A removal of anything but the directory. -/
theorem delete_quiet (dir : ℕ) {p ino : ℕ} (hp : w.holds S_ISDIR p = true) {j : Inode}
    (hj : w.inode? ino = some j) (q : Qstr) :
    wp (yaf_delete p q ino) (fun r w' => (ino = dir → r ≠ 0) →
      Quiet dir w (if r = 0 then w'.iput ino else w')) (fun _ => True) w := by
  obtain ⟨k, hk, -⟩ := World.exists_of_holds hp
  have hunlink : ∀ d off, Quiet dir w (w.unlink p (DNO2BID w.sb d) off) := by
    intro d off
    exact (Quiet.setData w d _).trans (.touch fun _ _ => ⟨rfl, rfl, rfl⟩)
  refine wp_yaf_delete_of_forall hk hj (fun _ => trivial) ?_ ?_ ?_
  · intro _
    rw [if_neg (by decide)]
    exact .refl w
  · intro d off j' _ _ hother
    have hne : ino ≠ dir := fun he => hother he rfl
    rw [if_pos rfl]
    exact (hunlink d off).trans ((Quiet.touch fun he => absurd he hne).trans (.iput hne))
  · intro d off j' _ _ _ _ _ hother
    have hne : ino ≠ dir := fun he => hother he rfl
    rw [if_pos rfl]
    exact (hunlink d off).trans ((Quiet.unmark _ _).trans ((Quiet.markI hne false).trans
      ((Quiet.touch fun he => absurd he hne).trans (.iput hne))))

/-- A write to a file. -/
theorem write_quiet (h : Stands dir w) {ino : ℕ} {j : Inode} (hj : w.inode? ino = some j)
    (hne : ino ≠ dir) {pos copied : ℕ} {data : List UInt8} (hlen : 0 < data.length) :
    wp (vfs_write ino pos data copied) (fun _ w' => Quiet dir w w') (fun _ => True) w := by
  have htouch : ∀ (w₁ : World) (f : Inode → Inode), Quiet dir w₁ (w₁.touch ino f) :=
    fun w₁ f => .touch fun he => absurd he hne
  have hassign : ∀ rem k (w₁ : World), Quiet dir w₁ (w₁.assign ino rem k) := by
    intro rem
    induction rem with
    | zero => exact fun _ w₁ => .refl w₁
    | succ rem ih =>
        intro k w₁
        exact (Quiet.takeD w₁).trans ((Quiet.edit_of_ne _ hne).trans (ih _ _))
  have hmap : Quiet dir w (w.mapped ino j (pos / 4096)) := by
    rw [World.mapped]
    split
    · exact (hassign _ _ w).trans (htouch _ _)
    · exact .refl w
  refine wp_vfs_write hj h.layout hlen (fun _ => .refl w) fun _ j' _ => ?_
  split
  · refine hmap.trans ?_
    rw [← hmap.sb, World.stored]
    have hfill : ∀ b, Quiet dir (w.mapped ino j (pos / 4096))
        ((w.mapped ino j (pos / 4096)).setBlock
          (DNO2BID (w.mapped ino j (pos / 4096)).sb (j'.blk (pos / 4096)).toNat) b) :=
      fun b => .setData _ _ b
    split
    · split
      · exact (hfill _).trans (htouch _ _)
      · exact hfill _
    · split
      · exact (hfill _).trans ((htouch _ _).trans (htouch _ _))
      · exact (hfill _).trans (htouch _ _)
  · exact hmap

/-- A creation in `dir` that got a slot and failed all the same.  (A search that finds no slot ends
the run.) -/
def Op.wastes (dir : ℕ) (op : Op) (r : Reply) : Bool :=
  match op with
  | .create p q _ | .mkdir p q _ =>
      decide (p = dir) && decide (q.len ≤ YAF_DENTRY_NAME_LEN) && r.2.isNone
  | _ => false

/-- **Every step leaves the slots alone or appends one**, and only when all are occupied. -/
theorem step_extends (h : Stands dir w) (hi : w.inode? dir = some i)
    (hdir : S_ISDIR i.i_mode = true) (hshape : i.DirShape) {op : Op} (hup : op.isUpdate = true)
    (hpre : op.Pre w) :
    wp (step op) (fun r w' => (op.victim = some dir → r.1 ≠ 0) → Quiet dir w w' ∨
      Appended dir w i w' ∧ (op.wastes dir r = false → ∀ i', w'.inode? dir = some i' →
        ∀ s < i'.i_size / 32, w'.slotLive i' s = true)) (fun _ => True) w := by
  have hcreate : ∀ p q mode (op : Op), w.holds S_ISDIR p = true →
      (∀ r, op.wastes dir r =
        (decide (p = dir) && decide (q.len ≤ YAF_DENTRY_NAME_LEN) && r.2.isNone)) →
      wp (_yaf_create p q mode) (fun r w' => (op.victim = some dir → r.1 ≠ 0) → Quiet dir w w' ∨
        Appended dir w i w' ∧ (op.wastes dir r = false → ∀ i', w'.inode? dir = some i' →
          ∀ s < i'.i_size / 32, w'.slotLive i' s = true)) (fun _ => True) w := by
    intro p q mode op hp hwastes
    by_cases he : p = dir
    · subst p
      refine wp_mono (create_extends h hi hshape q mode) (fun r w' hr _ => ?_) fun _ h => h
      rcases hr with hq | ⟨happ, hlen, hfill⟩
      · exact .inl hq
      · refine .inr ⟨happ, fun hw => hfill ?_⟩
        rw [hwastes, YAF_DENTRY_NAME_LEN_eq, decide_eq_true rfl, decide_eq_true hlen] at hw
        exact Option.isSome_iff_ne_none.1 (Option.isNone_eq_false_iff.1 hw)
    · exact wp_mono (create_quiet h hp he q mode) (fun _ _ hq _ => .inl hq) fun _ h => h
  have hother : ∀ ino, w.holds S_ISREG ino = true → ino ≠ dir := by
    rintro ino hreg rfl
    obtain ⟨j, hj, hkind⟩ := World.exists_of_holds hreg
    rw [hi, Option.some_inj] at hj
    subst hj
    exact absurd (hdir.symm.trans (S_ISDIR_of_S_ISREG hkind)) (by decide)
  cases op with
  | create p q mode => exact hcreate p q (mode ||| S_IFREG) (.create p q mode) hpre.1 fun _ => rfl
  | mkdir p q mode => exact hcreate p q (mode ||| S_IFDIR) (.mkdir p q mode) hpre.1 fun _ => rfl
  | unlink p q ino =>
      obtain ⟨hp, -, hfile⟩ := hpre
      obtain ⟨j, hj, -⟩ := World.exists_of_holds hfile
      simp only [step, wp_bind, wp_pure]
      refine wp_remove (wp_mono (delete_quiet dir hp hj q) (fun r w' hq => ?_) fun _ h => h)
      split
      · rw [if_pos ‹_›] at hq
        exact fun hv => .inl (hq fun he => hv (congrArg some he))
      · rw [if_neg ‹_›] at hq
        exact fun hv => .inl (hq fun he => hv (congrArg some he))
  | rmdir p q ino =>
      obtain ⟨hp, -, hsub⟩ := hpre
      obtain ⟨j, hj, -⟩ := World.exists_of_holds hsub
      simp only [step, wp_bind, wp_pure]
      refine wp_remove ?_
      rw [yaf_rmdir, wp_bind, wp_getInode hj]
      split
      · rw [wp_pure, if_neg (by decide)]
        exact fun _ => .inl (.refl w)
      · refine wp_mono (delete_quiet dir hp hj q) (fun r w' hq => ?_) fun _ h => h
        split
        · rw [if_pos ‹_›] at hq
          exact fun hv => .inl (hq fun he => hv (congrArg some he))
        · rw [if_neg ‹_›] at hq
          exact fun hv => .inl (hq fun he => hv (congrArg some he))
  | write ino pos data copied =>
      obtain ⟨hreg, hlen, -⟩ := hpre
      obtain ⟨j, hj, -⟩ := World.exists_of_holds hreg
      simp only [step, wp_bind, wp_pure]
      exact wp_mono (write_quiet h hj (hother ino hreg) hlen) (fun _ _ hq _ => .inl hq) fun _ h => h
  | setSize ino size =>
      simp only [step, simple_setattr, wp_bind, wp_modifyInode, wp_mark_inode_dirty, wp_pure,
        World.touch_edit, id]
      exact fun _ => .inl (.touch fun he => absurd he (hother ino hpre.1))
  | tick now fsuid fsgid => exact fun _ => .inl (.of_inode? rfl rfl rfl rfl)
  | device io => exact fun _ => .inl (.of_inode? rfl rfl rfl rfl)
  | lookup | openFile | closeFile | writeInode | evict => simp [Op.isUpdate] at hup

end Step

/-! ### Histories -/

/-- **The runs on a directory** `dir` that begin when it is empty and end before it is removed,
with the largest number of its entries so far, and whether a creation in it failed after it got a
slot.  Everything else of the first world is arbitrary. -/
inductive History (dir : ℕ) : World → ℕ → Bool → Prop
  | born {w : World} {i : Inode} (h : Stands dir w) (hi : w.inode? dir = some i)
      (hdir : S_ISDIR i.i_mode = true) (hsize : i.i_size = 0)
      (hblk : ∀ k, i.blk k = RESERVED_DNO) : History dir w 0 false
  | step {w w' : World} {peak : ℕ} {wasted : Bool} {op : Op} {r : Reply}
      (h : History dir w peak wasted) (hpre : op.Pre w) (hup : op.isUpdate = true)
      (hrun : (Yaf.step op).run w = .ok (r, w')) (hstays : op.victim = some dir → r.1 ≠ 0) :
      History dir w' (max peak (w'.liveEntries dir)) (wasted || op.wastes dir r)

/-- **The shape of a directory with a history.** -/
structure Grown (dir : ℕ) (w : World) (peak : ℕ) (wasted : Bool) (i : Inode) : Prop where
  stands : Stands dir w
  inode : w.inode? dir = some i
  isDir : S_ISDIR i.i_mode = true
  shape : i.DirShape
  live : w.liveEntries dir ≤ peak
  le : peak ≤ i.i_size / YAF_DENTRY_SIZE
  /-- at most one slot was never needed -/
  bound : i.i_size / YAF_DENTRY_SIZE ≤ peak + 1
  exact : wasted = false → i.i_size / YAF_DENTRY_SIZE = peak

namespace Grown

variable {dir : ℕ} {w w' : World} {peak : ℕ} {wasted : Bool} {i : Inode}

/-- A directory that keeps its size and its blocks. -/
theorem quiet (h : Grown dir w peak wasted i) (hq : Quiet dir w w') (wastes : Bool) :
    ∃ i', Grown dir w' (max peak (w'.liveEntries dir)) (wasted || wastes) i' := by
  obtain ⟨i', hi', hmode, hsize, hblk⟩ := hq.inode i h.inode
  have hlive := World.liveEntries_le hi'
  have hle := h.le
  have hbound := h.bound
  rw [← hsize] at hle hbound
  refine ⟨i', h.stands.quiet hq, hi', by rw [hmode, h.isDir], ?_, Nat.le_max_right _ _,
    Nat.max_le.2 ⟨hle, hlive⟩, ?_, fun hw => ?_⟩
  · exact Namespace.dirShape_congr hsize (fun k => by rw [Inode.blk, Inode.blk, hblk]) h.shape
  · exact Nat.le_trans hbound (Nat.succ_le_succ (Nat.le_max_left _ _))
  · have he := h.exact (Bool.or_eq_false_iff.1 hw).1
    rw [← hsize] at he
    omega

/-- A directory that gets a slot more. -/
theorem appended (h : Grown dir w peak wasted i) (happ : Appended dir w i w') {wastes : Bool}
    (hfill : wastes = false → ∀ i', w'.inode? dir = some i' → ∀ s < i'.i_size / 32,
      w'.slotLive i' s = true) :
    ∃ i', Grown dir w' (max peak (w'.liveEntries dir)) (wasted || wastes) i' := by
  obtain ⟨i', hi', hmode, hsize, hshape⟩ := happ.inode
  have hd : YAF_DENTRY_SIZE = 32 := rfl
  -- all slots were occupied, so there were as many entries
  have hfull := World.liveEntries_of_full h.inode happ.full
  have hlive := h.live
  have hle := h.le
  have hnow := World.liveEntries_le hi'
  rw [hd] at hfull hle hnow
  refine ⟨i', happ.stands h.stands, hi', by rw [hmode, h.isDir], hshape, Nat.le_max_right _ _,
    ?_, ?_, fun hw => ?_⟩
  · rw [hd]
    omega
  · rw [hd]
    omega
  · have hall := World.liveEntries_of_full hi' (hfill (Bool.or_eq_false_iff.1 hw).2 i' hi')
    rw [hd] at hall ⊢
    omega

end Grown

/-- Every directory with a history is well shaped. -/
theorem exists_grown {dir : ℕ} {w : World} {peak : ℕ} {wasted : Bool}
    (h : History dir w peak wasted) : ∃ i, Grown dir w peak wasted i := by
  induction h with
  | @born w i h hi hdir hsize hblk =>
      have hlive := World.liveEntries_le hi
      rw [hsize, Nat.zero_div] at hlive
      refine ⟨i, h, hi, hdir, ⟨?_, ?_, fun k _ => ?_⟩, hlive, ?_, ?_, fun _ => ?_⟩
      · rw [hsize]
      · rw [hsize]
        exact Nat.zero_le _
      · rw [hblk, hsize]
        exact iff_of_false (fun hne => hne rfl) (Nat.not_lt_zero _)
      · exact Nat.zero_le _
      · rw [hsize, Nat.zero_div]
        exact Nat.zero_le _
      · rw [hsize, Nat.zero_div]
  | @step w w' peak wasted op r _ hpre hup hrun hstays ih =>
      obtain ⟨i, hi⟩ := ih
      rcases (step_extends hi.stands hi.inode hi.isDir hi.shape hup hpre).ok hrun hstays with
        hq | ⟨happ, hfill⟩
      · exact hi.quiet hq _
      · exact hi.appended happ hfill

/-- **The shape and the growth of a directory**, in every run.  The number of slots is at most one
more than the largest number of entries so far, and equal to it when no creation failed after it
got a slot; the scans of the directory stay inside `i_block`, and the entry a block is attached to
is free; and a step appends a slot only when all are occupied. -/
theorem grown_of_history {dir : ℕ} {w : World} {peak : ℕ} {wasted : Bool}
    (h : History dir w peak wasted) : ∃ i, Grown dir w peak wasted i ∧
      (∀ hit, wp (scanDir hit i YAF_IBLOCKS 0) (fun _ _ => True) (fun _ => False) w) ∧
      (i.i_size % YAF_BLOCK_SIZE = 0 → i.i_size / YAF_DENTRY_SIZE ≠ MAX_DENTRYS →
        wp (attachDentryBlock dir i.i_size) (fun _ _ => True) (fun _ => False) w) ∧
      ∀ op r w' i', op.Pre w → op.isUpdate = true → (step op).run w = .ok (r, w') →
        (op.victim = some dir → r.1 ≠ 0) → w'.inode? dir = some i' → i'.i_size ≠ i.i_size →
          ∀ s < i.i_size / YAF_DENTRY_SIZE, w.slotLive i s = true := by
  obtain ⟨i, hi⟩ := exists_grown h
  have hd : YAF_DENTRY_SIZE = 32 := rfl
  have hle := hi.shape.le
  have hsl := hi.shape.slots
  refine ⟨i, hi, fun hit => ?_, fun halign hroom => ?_, ?_⟩
  · refine wp_scanDir (m := i.i_size / 32) (by omega) (by omega) (fun _ => trivial) ?_
    split <;> trivial
  · rw [YAF_BLOCK_SIZE_eq] at halign
    rw [hd, MAX_DENTRYS_eq] at hroom
    have hk : i.i_size / 4096 < 8 := by omega
    have hres : i.blk (i.i_size / 4096) = RESERVED_DNO := by
      by_contra hne
      have hlt := (hi.shape.dense _ hk).1 hne
      omega
    rw [wp_attachDentryBlock hi.inode hi.stands.layout hk, if_pos hres]
    trivial
  · intro op r w' i' hpre hup hrun hstays hi' hsize
    rcases (step_extends hi.stands hi.inode hi.isDir hi.shape hup hpre).ok hrun hstays with
      hq | ⟨happ, -⟩
    · obtain ⟨i₁, hi₁, -, hs₁, -⟩ := hq.inode i hi.inode
      rw [hi', Option.some_inj] at hi₁
      subst hi₁
      exact absurd hs₁ hsize
    · exact happ.full

/-- A run in which the directory is not removed continues its history. -/
theorem history_of_run {dir : ℕ} {w₀ w : World} {l : List (Op × Reply)}
    (h₀ : History dir w₀ 0 false)
    (hrun : Run step (fun w op => op.Pre w ∧ op.isUpdate = true ∧ op.victim ≠ some dir) w₀ l w) :
    ∃ peak, History dir w peak (l.any fun x => x.1.wastes dir x.2) := by
  induction hrun with
  | nil => exact ⟨0, h₀⟩
  | @snoc l w w' op r _ hok hr ih =>
      obtain ⟨peak, h⟩ := ih
      obtain ⟨hpre, hup, hv⟩ := hok
      refine ⟨max peak (w'.liveEntries dir), ?_⟩
      rw [List.any_append, List.any_cons, List.any_nil, Bool.or_false]
      exact .step h hpre hup hr fun he => absurd he hv

/-- The permissions do not say what an inode is. -/
theorem S_ISDIR_or (m : UInt16) {b : UInt16} (hb : b &&& S_IFMT = 0) :
    S_ISDIR (m ||| b) = S_ISDIR m := by
  have hdist : (m ||| b) &&& S_IFMT = (m &&& S_IFMT) ||| (b &&& S_IFMT) := by
    refine UInt16.eq_of_toBitVec_eq ?_
    simp only [UInt16.toBitVec_and, UInt16.toBitVec_or]
    exact BitVec.and_or_distrib_right
  rw [S_ISDIR, S_ISDIR, hdist, hb, UInt16.or_zero]

/-- **A directory that is made has a history** from then on. -/
theorem mkdir_born {p : ℕ} {w : World} (h : Stands p w) (hp : w.holds S_ISDIR p = true) (q : Qstr)
    {mode : UInt16} (hmode : mode &&& S_IFMT = 0) :
    wp (yaf_mkdir p q mode) (fun r w' => ∀ n, r.2 = some n → History n w' 0 false)
      (fun _ => True) w := by
  obtain ⟨j, hj, -⟩ := World.exists_of_holds hp
  rw [yaf_mkdir, _yaf_create]
  split
  · exact fun n hn => by simp at hn
  rw [wp_bind]
  refine wp_mono (Q := fun _ w₁ => Stands p w₁ ∧ ∃ j₁, w₁.inode? p = some j₁)
    (E := fun _ => True) ?_ ?_ fun _ h => h
  · refine wp_yaf_get_free_dentry_of_forall hj h.layout (fun _ => trivial) ?_ ?_ ?_
    · exact fun _ _ => ⟨h, j, hj⟩
    · intro doff _
      obtain ⟨j₁, hj₁, -⟩ := inode?_append hj doff (j.blk (doff / 4096))
      refine ⟨⟨h.layout, h.lt, ?_⟩, j₁, hj₁⟩
      rw [iset_append]
      exact h.marked
    · intro doff _ _
      obtain ⟨j₁, hj₁, -⟩ := inode?_append (inode?_attach hj (doff / 4096)) doff w.takeD.1
      have htake := h.quiet (.takeD w)
      refine ⟨⟨htake.layout, htake.lt, ?_⟩, j₁, hj₁⟩
      rw [iset_append]
      exact htake.marked
  · rintro r w₁ ⟨h₁, j₁, hj₁⟩
    rcases Nat.lt_or_ge ((r % 2 ^ 64).toNat / 4096) 8 with hk | hk
    · rw [wp_linkDentry hj₁ hk]
      split
      · refine wp_yaf_new_inode_of_forall h₁.layout hj₁ (fun _ => trivial)
          (fun _ n hn => by simp at hn) (fun _ _ n hn => by simp at hn)
          (fun _ n hn => by simp at hn) (fun _ _ _ _ _ n hn => by simp at hn) ?_
        rintro n d hn h₀ hlt _ _ ⟨⟩
        have hcover := h₁.layout.ibp_covers
        have hne := h₁.ne_of_head? hn
        set bid := DNO2BID w₁.sb (j₁.blk ((r % 2 ^ 64).toNat / 4096)).toNat with hbid
        have hstart : 1 + (w₁.create n d (mode ||| S_IFDIR)).sb.nr_ibp ≤ bid := by
          rw [hbid, DNO2BID_eq, World.create, World.sb_setCore, World.markI, World.sb_setBlock]
          omega
        have hinode : ((w₁.create n d (mode ||| S_IFDIR)).link p bid ((r % 2 ^ 64).toNat % 4096) n
            q).inode? n = some (w₁.newInode d (mode ||| S_IFDIR) (w₁.slot n).toMem) := by
          rw [World.link, World.inode?_touch, if_neg hne, World.inode?_setBlock, World.create,
            World.inode?_setCore _ _ rfl, if_pos rfl]
        have hdir : S_ISDIR (mode ||| S_IFDIR) = true := by
          rw [UInt16.or_comm, S_ISDIR_or _ hmode]
          decide
        refine .born ⟨h₁.layout, hlt, ?_⟩ hinode ?_ rfl fun k => ?_
        · rw [World.iset_link hstart, World.view_create w₁ (by omega)]
          exact Function.update_self _ _ _
        · rw [World.newInode, inode_init_owner]
          rw [if_pos hdir]
          split
          · exact (S_ISDIR_or _ (by decide)).trans hdir
          · exact hdir
        · simp only [Inode.blk, World.newInode, dite_eq_ite, ite_self]
      · exact fun n hn => by simp at hn
    · rw [wp_linkDentry_of_le hj₁ hk]
      trivial

/-- The root directory right after the mount. -/
theorem Volume.history_mounted {v : Volume} (h : v.Ok) : History ROOT_INO v.mounted 0 false := by
  have hheld := Volume.held_mounted h
  have hi := Volume.inode?_mounted (v := v) ROOT_INO
  rw [if_pos rfl] at hi
  have hdir : S_ISDIR (UInt32.toUInt16 0o040777) = true := by decide
  refine .born ⟨hheld.layout, hheld.lt_of_inode? hi, ?_⟩ hi hdir rfl fun k => ?_
  · rw [Volume.iset_mounted h]
    rfl
  · simp only [Inode.blk, Mkfs.rootInode, Yaf_Inode.toMem, dite_eq_ite, ite_self]

/-- Three entries, of which two were there at a time: the third took a slot that was freed. -/
theorem grown_small : ∃ l w i, Run step (fun w op => op.Pre w) (fresh .small) l w ∧
    l.map Prod.snd = [(0, some 2), (0, some 3), (0, none), (0, some 2)] ∧
      History ROOT_INO w 2 false ∧ Grown ROOT_INO w 2 false i ∧ i.i_size = 64 ∧
        wp (scanDir isFree i YAF_IBLOCKS 0) (fun _ _ => True) (fun _ => False) w := by
  obtain ⟨l, w, hrun, hp⟩ := Volume.exists_run Volume.small_ok
    (fun w op => op.Pre w ∧ op.isUpdate = true ∧ op.victim ≠ some ROOT_INO)
    [.create 1 (.letters 0) 0, .create 1 (.letters 1) 0, .unlink 1 (.letters 0) 2,
      .create 1 (.letters 2) 0]
    (fun l w => decide (l.map Prod.snd = [(0, some 2), (0, some 3), (0, none), (0, some 2)]) &&
      !(l.any fun x => x.1.wastes ROOT_INO x.2) &&
        (w.inode? ROOT_INO).any fun i : Inode => decide (i.i_size = 64)) (by decide +kernel)
  simp only [Bool.and_eq_true, decide_eq_true_eq, Bool.not_eq_true', Option.any_eq_true] at hp
  obtain ⟨⟨hreply, hwasted⟩, i, hi, hsize⟩ := hp
  have hstart := Volume.history_mounted Volume.small_ok
  rw [← Volume.fresh_eq Volume.small_ok] at hstart
  obtain ⟨peak, hhist⟩ := history_of_run hstart hrun
  rw [hwasted] at hhist
  obtain ⟨i', hgrown, hscan, -⟩ := grown_of_history hhist
  have hsame := hgrown.inode
  rw [hi, Option.some_inj] at hsame
  subst hsame
  -- no creation failed, so the largest number is that of the slots
  have hpeak := hgrown.exact rfl
  rw [hsize] at hpeak
  obtain rfl : 2 = peak := hpeak
  exact ⟨l, w, i, hrun.mono fun _ _ h => h.1, hreply, hhist, hgrown, hsize, hscan isFree⟩

end Yaf
