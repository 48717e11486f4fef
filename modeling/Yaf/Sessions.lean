/-
**Volumes that are mounted again** (`yaf_kill_sb` of `driver/super.c` and `yaf_mount` of
`driver/fs.c`).

When a volume is unmounted, the kernel writes its dirty pages and its modified inodes back, and
nothing stays in memory; a mount reads the superblock and the root inode.  What the driver wrote to
the device is all there is in between.  So an unmount followed by a mount is, for the operations
before and after it, no more than inodes that are written back and leave the memory, as they do in
the middle of a mount; and a volume that is mounted many times behaves as if it were mounted once.

The root inode is read while a volume is mounted, so its times must survive the 32 bits of the
on-disk fields: the clock does not go back, and stays within these bits.

Main definitions:

* `Yaf.Paged.yaf_kill_sb`, `Yaf.Paged.yaf_mount` — unmounting and mounting;
* `Yaf.Act`, `Yaf.Act.step` — what happens to a volume over many mounts;
* `Yaf.Paged.Serves` — a mount that stands for a tree, and can be unmounted and mounted again.

Main results:

* `Yaf.World.wp_yaf_fill_super` — a volume with an intact superblock can be mounted;
* `Yaf.Mirrors.wp_mount` — the mount leads where evictions lead;
* `Yaf.Act.implements_tree` — **a remount is a sequence of write-backs and evictions**.
-/

import Yaf.Writeback
import Yaf.Confinement
import Yaf.Stamps

set_option relaxedAutoImplicit false
set_option autoImplicit false

namespace Yaf

open Prog

variable {w w' : World} {s s' : Namespace} {c : Paged} {n : ℕ}

/-! ### Unmounting and mounting -/

/-- A device that is not mounted. -/
def World.unmounted (w : World) : World :=
  { w with sb := ⟨0, 0, 0, 0⟩, icache := fun _ => none }

namespace Paged

/-- Writing the dirty ones of the given pages back. -/
def syncPages : List (ℕ × ℕ) → Pager Unit
  | [] => pure ()
  | (ino, idx) :: l => do
      if (← get).dirty ino idx then
        let _ ← yaf_writepage ino idx
      syncPages l

/-- The inodes in memory. -/
def inodes (c : Paged) : List ℕ :=
  (List.range (c.world.sb.nr_i * INODES_PER_BLOCK)).filter fun n => (c.world.icache n).isSome

/-- `yaf_kill_sb`: `kill_block_super` writes the pages and the inodes back that were modified, and
lets all of them leave the memory. -/
def yaf_kill_sb : Pager Unit := do
  let c ← get
  syncPages (c.inodes.product (List.range YAF_IBLOCKS))
  onWorld (syncFrom (c.world.sb.nr_i * INODES_PER_BLOCK) 0)
  modify fun c => ⟨c.world.unmounted, fun _ _ => none⟩

/-- `yaf_mount`: `mount_bdev` has `yaf_fill_super` fill a superblock in. -/
def yaf_mount : Pager ℤ := onWorld yaf_fill_super

end Paged

/-- What happens to a volume: an event while it is mounted, or an unmount and a mount. -/
inductive Act where
  | event (e : Event)
  | remount

/-- No file is open, so that the volume can be unmounted. -/
def World.closed (w : World) : Bool :=
  (List.range (w.sb.nr_i * INODES_PER_BLOCK)).all fun n => w.opens n == 0

namespace Act

def step : Act → Pager Answer
  | .event e => Paged.step e
  | .remount => do
      Paged.yaf_kill_sb
      pure (.reply (← Paged.yaf_mount, none))

/-- The clock does not go back. -/
def Forward (c : Paged) : Act → Prop
  | .event (.call op) => op.Forward c.world
  | _ => True

instance (c : Paged) : (a : Act) → Decidable (a.Forward c)
  | .event (.call op) => inferInstanceAs (Decidable (op.Forward c.world))
  | .event (.read _ _) | .event (.readahead _ _) | .event (.writepage _ _) | .event (.reclaim _ _)
  | .remount => .isTrue trivial

/-- **When it can happen.** -/
def Ok (c : Paged) (a : Act) : Prop :=
  a.Forward c ∧ match a with
    | .event e => e.Ok c
    | .remount => c.world.closed = true

instance (c : Paged) (a : Act) : Decidable (a.Ok c) := by
  unfold Ok
  cases a <;> infer_instance

end Act

/-- Inodes that are written back, and leave the memory. -/
def Settles (l : List (Op × Reply)) : Prop :=
  ∀ x ∈ l, ∃ n, x = (.writeInode n, (0, none)) ∨ x = (.evict n, (0, none))

theorem Settles.append {l l' : List (Op × Reply)} (h : Settles l) (h' : Settles l') :
    Settles (l ++ l') := fun x hx => (List.mem_append.1 hx).elim (h x) (h' x)

/-- **What is seen** of it in the operations of a single mount. -/
inductive Act.Seen : Act × Answer → List (Op × Reply) → Prop
  | event {e : Event} {a : Answer} {l : List (Op × Reply)} (h : Event.Seen (e, a) l) :
      Seen (.event e, a) l
  | remount {l : List (Op × Reply)} (h : Settles l) : Seen (.remount, .reply (0, none)) l

/-! ### The superblock -/

/-- **The superblock is intact.** -/
def World.Labelled (w : World) : Prop := ∀ o < 4096, w.disk 0 o = Mkfs.superblock w.sb o

theorem World.Labelled.confined (h : w.Labelled) (hc : Confined w.nblk w w') : w'.Labelled := by
  obtain ⟨-, hsb, hdisk⟩ := hc rfl
  intro o ho
  rw [hsb, hdisk 0 (.inl rfl)]
  exact h o ho

/-- **A volume with an intact superblock can be mounted**: the counts and the root inode are
read. -/
theorem World.wp_yaf_fill_super (h : w.Labelled) (hok : w.sb.Ok w.nblk) (hio : w.io = ioOk) :
    wp yaf_fill_super (fun r w' => r = 0 ∧
      w' = ({ w with icache := fun _ => none } : World).load ROOT_INO) (fun _ => False)
      w.unmounted := by
  have hino : ROOT_INO < w.sb.nr_i * 64 := by
    have := hok.i_pos
    exact Nat.lt_of_lt_of_le (by decide) (Nat.mul_le_mul_right 64 this)
  have hdev := hok.INO2BID_lt hino
  have hask : ∀ (w : World) r, w.io = ioOk → w.io r w.disk = true := fun w r h => by rw [h]; rfl
  have hlabel : ∀ o < 4096, w.unmounted.disk 0 o = Mkfs.superblock w.sb o := h
  set w₁ : World := { w with icache := fun _ => none } with hw₁
  have hinode : w₁.readable .inode (INO2BID w₁.sb ROOT_INO) = true :=
    w₁.readable_of_ioOk hio _ hdev
  rw [yaf_fill_super, wp_bind, wp_sb_bread,
    if_pos (w.unmounted.readable_of_ioOk hio _ (Nat.zero_lt_of_lt hdev)), wp_bind, wp_bData,
    if_pos (Volume.magicOk_of_superblock hlabel), wp_bind, wp_ask,
    if_pos (hask w.unmounted _ hio), wp_bind, wp_modify, Volume.rd32_superblock hok hlabel, wp_bind]
  change wp (yaf_iget ROOT_INO) _ _ w₁
  rw [wp_yaf_iget (w := w₁) hino]
  have hcache : w₁.icache ROOT_INO = none := rfl
  rw [hcache]
  dsimp only
  rw [if_pos (hask w₁ _ hio), if_pos hinode]
  simp only [Int.lt_irrefl, if_false]
  rw [wp_bind, wp_ask, if_pos (hask (w₁.load ROOT_INO) _ hio), wp_pure]
  exact ⟨rfl, rfl⟩

/-! ### Writing inodes back, and dropping them -/

namespace Mirrors

/-- An inode in memory may be written back. -/
theorem careful_writeInode (h : Mirrors w s) (hn : s.core n ≠ none) :
    (Op.writeInode n).Careful w := h.careful_iff.2 ⟨hn, rfl, rfl, rfl, rfl⟩

/-- **Writing modified inodes back**, from number `n` on. -/
theorem wp_syncFrom (h : Mirrors w s) (rem n : ℕ) :
    wp (syncFrom rem n) (fun _ w' => ∃ l s', Run Yaf.step (fun w op => op.Careful w) w l w' ∧
      Settles l ∧ Mirrors w' s' ∧ s' = { s with core := s'.core } ∧
      (∀ m, s'.core m = none ↔ s.core m = none) ∧
      (∀ m, s.core m ≠ some true → s'.core m ≠ some true) ∧
      ∀ m, n ≤ m → m < n + rem → s'.core m ≠ some true) (fun _ => False) w := by
  induction rem generalizing w s n with
  | zero =>
      exact ⟨[], s, .nil, fun x hx => by simp at hx, h, rfl, fun _ => Iff.rfl, fun _ h => h,
        fun m h₁ h₂ => by omega⟩
  | succ rem ih =>
      -- when number `n` is not modified, the rest is done from here on
      have hrest : s.core n ≠ some true → wp (syncFrom rem (n + 1)) (fun _ w' => ∃ l s',
          Run Yaf.step (fun w op => op.Careful w) w l w' ∧ Settles l ∧ Mirrors w' s' ∧
          s' = { s with core := s'.core } ∧ (∀ m, s'.core m = none ↔ s.core m = none) ∧
          (∀ m, s.core m ≠ some true → s'.core m ≠ some true) ∧
          ∀ m, n ≤ m → m < n + (rem + 1) → s'.core m ≠ some true) (fun _ => False) w := by
        intro hclean
        refine wp_mono (ih h (n + 1)) ?_ fun _ he => he
        rintro _ w' ⟨l, s', hrun, hl, h', hs', hnone, hkeep, hdone⟩
        refine ⟨l, s', hrun, hl, h', hs', hnone, hkeep, fun m h₁ h₂ => ?_⟩
        rcases Nat.eq_or_lt_of_le h₁ with rfl | hlt
        · exact hkeep _ hclean
        · exact hdone m hlt (by omega)
      have hdirty := h.core n
      rw [syncFrom, wp_bind, wp_get]
      cases hc : w.icache n with
      | none =>
          rw [hc] at hdirty
          refine hrest ?_
          rw [← hdirty]
          simp
      | some x =>
          obtain ⟨i, dirty, new⟩ := x
          rw [hc] at hdirty
          dsimp only
          cases dirty with
          | false =>
              rw [if_neg Bool.false_ne_true]
              refine hrest ?_
              rw [← hdirty]
              simp
          | true =>
              have hcore : s.core n ≠ none := by
                rw [← hdirty]
                simp
              set s₁ : Namespace := { s with core := Function.update s.core n (some false) } with hs₁
              have hcore₁ : ∀ m, s₁.core m = if m = n then some false else s.core m :=
                fun m => Function.update_apply _ _ _ _
              have hs : s.step (.writeInode n) = some ((0, none), s₁) := rfl
              have hop := h.careful_writeInode hcore
              obtain ⟨w₁, hr, h₁⟩ := (matches_tree.symm.match_step h
                (h.careful_iff.1 hop)).ok (Namespace.program_ok.2 hs)
              have hwrite : wp (writeback n) (fun _ w₂ => w₂ = w₁) (fun _ => False) w := by
                have hstep : wp (Yaf.step (.writeInode n)) (fun _ w₂ => w₂ = w₁) (fun _ => False) w :=
                  (wp_of_run_ok hr).2 rfl
                simpa only [Yaf.step, wp_bind, wp_pure] using hstep
              rw [if_pos rfl, wp_bind]
              refine wp_mono hwrite ?_ fun _ he => he
              rintro - w₂ rfl
              refine wp_mono (ih h₁ (n + 1)) ?_ fun _ he => he
              rintro _ w' ⟨l, s', hrun, hl, h', hs', hnone, hkeep, hdone⟩
              have hone : ∀ x ∈ [((Op.writeInode n, (0, none)) : Op × Reply)], ∃ m,
                  x = (.writeInode m, (0, none)) ∨ x = (.evict m, (0, none)) :=
                fun x hx => ⟨n, .inl (List.mem_singleton.1 hx)⟩
              refine ⟨_, s', .cons hop hr hrun, Settles.append hone hl, h', hs', fun m => ?_,
                fun m hm => hkeep m ?_, fun m hm₁ hm₂ => ?_⟩
              · rw [hnone m, hcore₁]
                split
                · subst m
                  exact iff_of_false (Option.some_ne_none _) hcore
                · rfl
              · rw [hcore₁]
                split
                · simp
                · exact hm
              · rcases Nat.eq_or_lt_of_le hm₁ with rfl | hlt
                · refine hkeep _ ?_
                  rw [hcore₁, if_pos rfl]
                  simp
                · exact hdone m hlt (by omega)

/-- **Clean inodes may leave the memory**, all but the root. -/
theorem exists_evicted (h : Mirrors w s) (hclean : ∀ m, s.core m ≠ some true)
    (hclosed : ∀ m, s.opens m = 0) (ns : List ℕ) :
    ∃ l, Run Yaf.step (fun w op => op.Careful w) w l
      { w with icache := fun m => if m ∈ ns ∧ m ≠ ROOT_INO then none else w.icache m } ∧
      Settles l := by
  induction ns generalizing w s with
  | nil =>
      refine ⟨[], ?_, fun x hx => by simp at hx⟩
      have hsame : (fun m => if m ∈ ([] : List ℕ) ∧ m ≠ ROOT_INO then none else w.icache m) =
          w.icache := by
        funext m
        simp
      rw [hsame]
      exact .nil
  | cons n ns ih =>
      by_cases hskip : n = ROOT_INO ∨ w.icache n = none
      · obtain ⟨l, hrun, hl⟩ := ih h hclean hclosed
        have hsame : (fun m => if m ∈ n :: ns ∧ m ≠ ROOT_INO then none else w.icache m) =
            fun m => if m ∈ ns ∧ m ≠ ROOT_INO then none else w.icache m := by
          funext m
          by_cases hm : m = n
          · subst m
            rcases hskip with hroot | hnone
            · simp [hroot]
            · simp [hnone]
          · simp [hm]
        rw [hsame]
        exact ⟨l, hrun, hl⟩
      · push Not at hskip
        obtain ⟨hroot, hn⟩ := hskip
        have hcore : s.core n = some false := by
          have hmap := h.core n
          cases hc : w.icache n with
          | none => exact absurd hc hn
          | some x =>
              rw [hc] at hmap
              cases hd : x.dirty with
              | false => rw [← hmap, Option.map_some, hd]
              | true =>
                  rw [Option.map_some, hd] at hmap
                  exact absurd hmap.symm (hclean n)
        set s₁ : Namespace := { s with
          node := Function.update s.node n (s.node n).narrow
          core := Function.update s.core n none } with hs₁
        have hs : s.step (.evict n) = some ((0, none), s₁) := rfl
        have hop : (Op.evict n).Careful w :=
          h.careful_iff.2 ⟨⟨hcore, hroot, hclosed n⟩, rfl, rfl, rfl, rfl⟩
        have hr : (Yaf.step (.evict n)).run w = .ok ((0, none), w.setCore n none) := rfl
        obtain ⟨s₂, hs₂, h₁⟩ := (h.step hop).ok hr
        rw [hs, Option.some_inj, Prod.mk.injEq] at hs₂
        rw [← hs₂.2] at h₁
        have hcore₁ : ∀ m, s₁.core m = if m = n then none else s.core m :=
          fun m => Function.update_apply _ _ _ _
        obtain ⟨l, hrun, hl⟩ := ih h₁ (fun m => by
          rw [hcore₁]
          split
          · simp
          · exact hclean m) hclosed
        have hsame : (fun m => if m ∈ ns ∧ m ≠ ROOT_INO then none
            else (w.setCore n none).icache m) =
            fun m => if m ∈ n :: ns ∧ m ≠ ROOT_INO then none else w.icache m := by
          funext m
          by_cases hm : m = n
          · subst m
            rw [World.icache_setCore_self, ite_self, if_pos ⟨List.mem_cons_self, hroot⟩]
          · rw [World.icache_setCore_of_ne _ _ _ hm]
            simp [hm]
        have hone : Settles [(.evict n, (0, none))] :=
          fun x hx => ⟨n, .inr (List.mem_singleton.1 hx)⟩
        refine ⟨_, ?_, hone.append hl⟩
        rw [← hsame]
        exact .cons hop hr hrun

/-- **The mount leads where evictions lead**: when no inode in memory is modified, and the times of
the root survive its slot. -/
theorem wp_mount (h : Mirrors w s) (hlabel : w.Labelled) (hd : s.Dated)
    (hroot : s.core ROOT_INO ≠ none) (hclean : ∀ m, s.core m ≠ some true)
    (hclosed : ∀ m, s.opens m = 0) :
    wp yaf_fill_super (fun r w' => r = 0 ∧ ∃ l, Run Yaf.step (fun w op => op.Careful w) w l w' ∧
      Settles l) (fun _ => False) w.unmounted := by
  have hlive := h.inv.core ROOT_INO hroot
  obtain ⟨l, hrun, hl⟩ := h.exists_evicted hclean hclosed (List.range (w.sb.nr_i * 64))
  refine wp_mono (World.wp_yaf_fill_super hlabel h.held.layout h.io) ?_ fun _ he => he
  rintro r w' ⟨rfl, rfl⟩
  refine ⟨rfl, l, ?_, hl⟩
  obtain ⟨x, hx⟩ : ∃ x, w.icache ROOT_INO = some x := by
    cases hc : w.icache ROOT_INO with
    | some x => exact ⟨x, rfl⟩
    | none =>
        have hmap := h.core ROOT_INO
        rw [hc] at hmap
        exact absurd hmap.symm hroot
  have hcore : s.core ROOT_INO = some x.dirty := by
    rw [← h.core, hx]
    rfl
  have hdirty : x.dirty = false := by
    cases hdx : x.dirty with
    | false => rfl
    | true =>
        rw [hdx] at hcore
        exact absurd hcore (hclean ROOT_INO)
  -- the root inode that is read is the one that was in memory
  have hslot : (w.slot ROOT_INO).toMem = s.node ROOT_INO := by
    rw [h.clean ROOT_INO (by rw [hcore, hdirty])]
    exact (hd.node ROOT_INO hlive).narrow_eq hd.hi (h.inv.size_lt hlive)
  have hread : x = ⟨(w.slot ROOT_INO).toMem, false, false⟩ := by
    have hnode := h.node _ x hx
    have hnew := h.unlocked _ x hx
    obtain ⟨i, dirty, new⟩ := x
    obtain rfl : dirty = false := hdirty
    obtain rfl : new = false := hnew
    rw [hslot, ← hnode]
  have hsame : (fun m => if m ∈ List.range (w.sb.nr_i * 64) ∧ m ≠ ROOT_INO then none
      else w.icache m) = Function.update (fun _ => none) ROOT_INO
        (some ⟨(w.slot ROOT_INO).toMem, false, false⟩) := by
    funext m
    rw [Function.update_apply]
    by_cases hm : m = ROOT_INO
    · subst m
      rw [if_pos rfl, if_neg fun hne => hne.2 rfl, hx, hread]
    · rw [if_neg hm]
      by_cases hlt : m < w.sb.nr_i * 64
      · rw [if_pos ⟨List.mem_range.2 hlt, hm⟩]
      · rw [if_neg fun hin => hlt (List.mem_range.1 hin.1)]
        cases hc : w.icache m with
        | none => rfl
        | some y =>
            refine absurd (h.range m (h.inv.core m ?_)) hlt
            rw [← h.core, hc]
            simp
  rw [hsame] at hrun
  exact hrun

end Mirrors

/-! ### What a mount keeps -/

/-- The times stay in order, and the root stays in memory. -/
theorem Namespace.Inv.keeps (h : s.Inv) (hd : s.Dated) (hroot : s.core ROOT_INO ≠ none) {op : Op}
    {r : Reply} (hop : s.Careful op) (hs : s.step op = some (r, s'))
    (hforward : ∀ now uid gid, op = .tick now uid gid → s.now ≤ now ∧ now < 2 ^ 32) :
    s'.Inv ∧ s'.Dated ∧ s'.core ROOT_INO ≠ none := by
  have hinv := h.step hop.1 hs
  have hout := h.outcome hop.1 hs
  refine ⟨hinv, hout.dates h hd hforward, fun hnone => ?_⟩
  rcases hout.core hroot hnone with rfl | hdead
  · exact hop.1.2.1 rfl
  · exact hdead hinv.tree.root_alive

/-- So they do in a run of write-backs and evictions. -/
theorem Namespace.Inv.keeps_of_run (h : s.Inv) (hd : s.Dated) (hroot : s.core ROOT_INO ≠ none)
    {l : List (Op × Reply)} (hl : Settles l)
    (hrun : Run Namespace.program Namespace.Careful s l s') :
    s'.Inv ∧ s'.Dated ∧ s'.core ROOT_INO ≠ none := by
  induction hrun with
  | nil => exact ⟨h, hd, hroot⟩
  | snoc _ hop hr ih =>
      obtain ⟨hinv, hd', hroot'⟩ := ih fun x hx => hl x (List.mem_append_left _ hx)
      refine hinv.keeps hd' hroot' hop (Namespace.program_ok.1 hr) ?_
      intro now uid gid htick
      obtain ⟨n, hx | hx⟩ := hl _ (List.mem_append_right _ (List.mem_singleton_self _))
      · rw [Prod.mk.injEq, htick] at hx
        simp at hx
      · rw [Prod.mk.injEq, htick] at hx
        simp at hx

/-- **A mount that stands for a tree**, and can be unmounted and mounted again. -/
structure Paged.Serves (c : Paged) (s : Namespace) : Prop where
  backs : c.Backs s none
  dated : s.Dated
  root : s.core ROOT_INO ≠ none
  label : c.world.Labelled
  mapped : c.Mapped

namespace Paged.Serves

/-- **Writing pages back.** -/
theorem wp_syncPages (h : c.Serves s) (l : List (ℕ × ℕ)) :
    wp (syncPages l) (fun _ c' => c'.Serves s ∧
      ∀ n k, c'.dirty n k = (c.dirty n k && !decide ((n, k) ∈ l))) (fun _ => False) c := by
  induction l generalizing c with
  | nil =>
      refine ⟨h, fun n k => ?_⟩
      simp
  | cons x l ih =>
      obtain ⟨n, k⟩ := x
      have hmem : ∀ m i, decide ((m, i) ∈ (n, k) :: l) =
          (decide (m = n ∧ i = k) || decide ((m, i) ∈ l)) := by
        intro m i
        rw [Bool.eq_iff_iff]
        simp
      rw [syncPages, wp_bind, wp_get]
      cases hd : c.dirty n k with
      | false =>
          rw [if_neg Bool.false_ne_true]
          refine wp_mono (ih h) ?_ fun _ he => he
          rintro _ c' ⟨h', hdirty⟩
          refine ⟨h', fun m i => ?_⟩
          rw [hdirty, hmem]
          by_cases hx : m = n ∧ i = k
          · obtain ⟨rfl, rfl⟩ := hx
            rw [hd, Bool.false_and, Bool.false_and]
          · rw [decide_eq_false hx, Bool.false_or]
      | true =>
          rw [if_pos rfl, wp_bind]
          refine wp_mono (wp_and (h.backs.wp_yaf_writepage (E := fun _ => False) hd)
            (confines_yaf_writepage (N := c.world.nblk) n k c h.mapped)) ?_ fun _ he => he.1
          rintro _ c₁ ⟨⟨-, hback, -, hclean⟩, hmapped, hconf, -⟩
          refine wp_mono (ih ⟨hback, h.dated, h.root, h.label.confined hconf, hmapped⟩) ?_
            fun _ he => he
          rintro _ c' ⟨h', hdirty⟩
          refine ⟨h', fun m i => ?_⟩
          rw [hdirty, hclean, hmem, Bool.not_or, Bool.and_assoc]

/-- A dirty page is one of an inode in memory. -/
theorem mem_inodes {k : ℕ} (h : c.Serves s) (hd : c.dirty n k = true) :
    (n, k) ∈ c.inodes.product (List.range YAF_IBLOCKS) := by
  have hsb : c.world.sb = s.sb := h.backs.refines.sb
  obtain ⟨p, hp⟩ := exists_page_of_dirty hd
  have hold := h.backs.page n k p hp
  rw [List.pair_mem_product, inodes, List.mem_filter, List.mem_range, List.mem_range, hsb]
  refine ⟨⟨h.backs.inv.range n (h.backs.live hold.core), ?_⟩, hold.below⟩
  have hcore : (c.world.icache n).map InCore.dirty = s.core n := h.backs.refines.core n
  cases hc : c.world.icache n with
  | some x => rfl
  | none =>
      rw [hc] at hcore
      exact absurd hcore.symm hold.core

/-- **An unmount and a mount** are write-backs and evictions. -/
theorem wp_remount (h : c.Serves s) (hclosed : c.world.closed = true) :
    wp (Act.step .remount) (fun a c' => a = .reply (0, none) ∧ ∃ l s', Settles l ∧
      Run Namespace.program Namespace.Careful s l s' ∧ c'.Serves s') (fun _ => False) c := by
  have hsb : c.world.sb = s.sb := h.backs.refines.sb
  have hopens : ∀ m, s.opens m = 0 := by
    intro m
    have hsame : c.world.opens = s.opens := h.backs.refines.opens
    by_contra hopen
    have hlt := h.backs.inv.range m (h.backs.inv.opened m hopen).1
    rw [World.closed, List.all_eq_true, hsb] at hclosed
    have hzero := hclosed m (List.mem_range.2 hlt)
    rw [beq_iff_eq, hsame] at hzero
    exact hopen hzero
  rw [Act.step, wp_bind, yaf_kill_sb, wp_bind, wp_get, wp_bind]
  refine wp_mono (h.wp_syncPages _) ?_ fun _ he => he
  rintro _ c₁ ⟨h₁, hdirty⟩
  -- no page is dirty any more, so the device has all bytes
  have hclean : ∀ n k, c₁.dirty n k = false := by
    intro n k
    rw [hdirty]
    cases hd : c.dirty n k with
    | false => rfl
    | true =>
        rw [decide_eq_true (h.mem_inodes hd)]
        rfl
  have hm : Mirrors c₁.world s := by
    have hmirrors := h₁.backs.mirrors
    rwa [onDisk_of_clean hclean] at hmirrors
  rw [wp_bind, wp_onWorld]
  refine wp_mono (hm.wp_syncFrom _ 0) ?_ fun _ he => he
  rintro _ w ⟨l, s₁, hrun, hl, hm₁, hs₁, hnone, -, hdone⟩
  have hlabel : w.Labelled := h₁.label.confined fun _ => confined_of_run hrun
  have hdated : s₁.Dated := by
    rw [hs₁]
    exact ⟨h.dated.lo, h.dated.hi, h.dated.node⟩
  have hnot : ∀ m, s₁.core m ≠ some true := by
    intro m
    by_cases hm' : s.core m = none
    · rw [(hnone m).2 hm']
      simp
    · have hlt := h.backs.inv.range m (h.backs.inv.core m hm')
      refine hdone m (Nat.zero_le m) ?_
      rw [hsb, Nat.zero_add]
      exact hlt
  have hopens₁ : ∀ m, s₁.opens m = 0 := by
    rw [hs₁]
    exact hopens
  have hroot : s₁.core ROOT_INO ≠ none := fun hno => h.root ((hnone _).1 hno)
  rw [wp_modify, wp_bind, yaf_mount, wp_onWorld]
  refine wp_mono (hm₁.wp_mount hlabel hdated hroot hnot hopens₁) ?_ fun _ he => he
  rintro r w' ⟨rfl, l', hrun', hl'⟩
  have hall := hrun.append hrun'
  obtain ⟨t, htree, ht⟩ := matches_tree.run hm hall
  have hsettles := hl.append hl'
  obtain ⟨-, hdt, hroott⟩ := h.backs.inv.keeps_of_run h.dated h.root hsettles htree
  refine ⟨rfl, l ++ l', t, hsettles, htree, ht.backs, hdt, hroott,
    h₁.label.confined fun _ => confined_of_run hall, fun n k p bid hp => ?_⟩
  simp at hp

/-- **An event.** -/
theorem step_event (h : c.Serves s) {e : Event} {a : Answer} {c' : Paged}
    (hok : (Act.event e).Ok c) (hr : (Paged.step e).run c = .ok (a, c')) :
    ∃ l s', Event.Seen (e, a) l ∧ Run Namespace.program Namespace.Careful s l s' ∧
      c'.Serves s' := by
  obtain ⟨hforward, he⟩ := hok
  obtain ⟨l, s', hseen, hrun, hback⟩ := implements_tree.run_step h.backs he hr
  obtain ⟨hmapped, hconf, -⟩ := (confines_step (N := c.world.nblk) e c h.mapped).ok hr
  have hlabel := h.label.confined hconf
  have hone : ∀ {op r}, l = [(op, r)] →
      (∀ now uid gid, op = .tick now uid gid → s.now ≤ now ∧ now < 2 ^ 32) → c'.Serves s' := by
    intro op r hl htick
    rw [hl] at hrun
    obtain ⟨hop, hs⟩ := hrun.of_single
    obtain ⟨-, hd, hroot⟩ := h.backs.inv.keeps h.dated h.root hop (Namespace.program_ok.1 hs) htick
    exact ⟨hback, hd, hroot, hlabel, hmapped⟩
  have hnone : l = [] → c'.Serves s' := by
    intro hl
    rw [hl] at hrun
    obtain rfl := hrun.eq_of_nil
    exact ⟨hback, h.dated, h.root, hlabel, hmapped⟩
  refine ⟨l, s', hseen, hrun, ?_⟩
  cases hseen with
  | call op r =>
      refine hone rfl ?_
      have hnow : c.world.now = s.now := h.backs.refines.now
      rw [← hnow]
      exact Op.Forward.tick_le hforward
  | again => exact hone rfl fun _ _ _ htick => by simp at htick
  | read | readahead | writepage | reclaim => exact hnone rfl

end Paged.Serves

/-- **Each act is some operations of the tree.** -/
theorem Act.implements_tree : Implements Paged.Serves Act.step Act.Ok Namespace.program
    Namespace.Careful Act.Seen := by
  refine ⟨?_⟩
  intro c s a x c' h hok hr
  cases a with
  | event e =>
      obtain ⟨l, s', hseen, hrun, h'⟩ := h.step_event hok hr
      exact ⟨l, s', .event hseen, hrun, h'⟩
  | remount =>
      obtain ⟨rfl, l, s', hl, hrun, h'⟩ := (h.wp_remount hok.2).ok hr
      exact ⟨l, s', .remount hl, hrun, h'⟩

/-! ### Runs -/

variable {v : Volume}

/-- Executing acts on a fresh volume, and checking where this ends. -/
theorem Volume.exists_acts {v : Volume} (h : v.Ok) (as : List Act)
    (p : List (Act × Answer) → Paged → Bool)
    (hp : ((exec Act.step Act.Ok v.mounted.unpaged as).any fun x => p x.1 x.2) = true) :
    ∃ l c, Run Act.step Act.Ok (fresh v).unpaged l c ∧ p l c = true := by
  rw [fresh_eq h]
  exact exists_run_of_exec hp

end Yaf
