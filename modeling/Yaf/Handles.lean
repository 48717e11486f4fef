/-
**Files that are open.**

As long as no file is removed while it is open, a handle leads to the file it was opened on: the
number stays allocated and is given to no other file, the blocks stay where they are and belong to
no other inode, and a write through the handle changes nothing else.  `yaf_delete` does not look
whether the file is open, so removing an open file gives its number and its blocks away.

Main definitions:

* `Yaf.World.KeepsOpen` — **what a step leaves of the files that are open**.

Main results:

* `Yaf.Namespace.Inv.open_step` — what a step of the tree leaves of them;
* `Yaf.handles_of_run` — **handles are safe** in runs that remove no open file;
* `Yaf.not_handles_unlinked` — the number of an open file is given to another.
-/

import Yaf.Contents

set_option relaxedAutoImplicit false
set_option autoImplicit false

namespace Yaf

open Prog

variable {w w' : World} {s s' : Namespace}

/-! ### Open files of the tree -/

namespace Namespace.Inv

/-- A number that a creation replies was free. -/
theorem free_of_reply {op : Op} {r : Reply} (hs : s.step op = some (r, s'))
    {n : ℕ} (hn : r.2 = some n) : s.iset n = false := by
  have hcreate : ∀ p q mode, s.create p q mode = some (r, s') → s.iset n = false := by
    intro p q mode hs
    unfold Namespace.create at hs
    split at hs
    · obtain ⟨⟨j, s₁⟩, -, hs⟩ := Option.bind_eq_some_iff.1 hs
      obtain ⟨k, hk, hs⟩ := Option.map_eq_some_iff.1 hs
      split at hs
      · cases hs
        cases hn
        exact (Mem.mem_clears.1 (List.mem_of_head? hk)).2
      · cases hs
        simp at hn
    · cases hs
      simp at hn
  have hremove : ∀ p q ino, s.remove p q ino = some (r, s') → s.iset n = false := by
    intro p q ino hs
    unfold Namespace.remove at hs
    split at hs
    · obtain ⟨j, -, hs⟩ := Option.map_eq_some_iff.1 hs
      cases hs
      simp at hn
    · simp at hs
  cases op with
  | create p q mode => exact hcreate p q _ hs
  | mkdir p q mode => exact hcreate p q _ hs
  | unlink p q ino => exact hremove p q ino hs
  | rmdir p q ino =>
      simp only [Namespace.step] at hs
      split at hs
      · cases hs
        simp at hn
      · exact hremove p q ino hs
  | lookup p q =>
      obtain rfl : (s.lookup p q).1 = r := congrArg Prod.fst (Option.some.inj hs)
      unfold Namespace.lookup at hn
      split at hn <;> simp at hn
  | write k pos data copied =>
      simp only [Namespace.step] at hs
      unfold Namespace.write at hs
      split at hs
      · cases hs
        simp at hn
      · obtain ⟨s₁, -, hs⟩ := Option.map_eq_some_iff.1 hs
        split at hs
        · cases hs
          simp at hn
        · cases hs
          simp at hn
  | openFile | closeFile | writeInode | evict | tick =>
      cases hs
      simp at hn
  | setSize | device => simp [Namespace.step] at hs

/-- A file that is open stays allocated. -/
theorem open_live (h : s.Inv) {op : Op} (hpre : s.Pre op) {r : Reply}
    (hs : s.step op = some (r, s')) {n : ℕ} (hn : s.opens n ≠ 0) : s'.Live n := by
  obtain ⟨hlive, hf⟩ := h.opened n hn
  have hsame : s'.iset = s.iset → s'.Live n := by
    intro hiset
    rw [Live, hiset]
    exact hlive
  have hcreate : ∀ p q mode, s.holds S_ISDIR p → s.create p q mode = some (r, s') → s'.Live n := by
    intro p q mode hp hs
    unfold Namespace.create at hs
    split at hs
    · obtain ⟨⟨j, s₁⟩, hg, hs⟩ := Option.bind_eq_some_iff.1 hs
      obtain ⟨k, -, hs⟩ := Option.map_eq_some_iff.1 hs
      have hiset := (h.getFree (h.core p hp.1) hp.2 hg).iset
      split at hs
      · cases hs
        refine ⟨?_, hlive.2⟩
        have hmark : (s₁.link p j q k mode).iset n = Function.update s₁.iset k true n := rfl
        rw [hmark, Function.update_apply, hiset]
        split
        · rfl
        · exact hlive.1
      · cases hs
        exact hsame hiset
    · cases hs
      exact hlive
  have hremove : ∀ p q ino, n ≠ ino → s.bound p q = some ino →
      s.remove p q ino = some (r, s') → s'.Live n := by
    intro p q ino hne hb hs
    obtain ⟨j, -, hrm⟩ := remove_of_bound hb
    rw [hrm] at hs
    cases hs
    exact ⟨(Function.update_of_ne hne _ _).trans hlive.1, hlive.2⟩
  cases op with
  | lookup p q =>
      obtain rfl : (s.lookup p q).2 = s' := congrArg Prod.snd (Option.some.inj hs)
      exact hsame (h.lookup_same p q).1
  | create p q mode => exact hcreate p q _ hpre.1 hs
  | mkdir p q mode => exact hcreate p q _ hpre.1 hs
  | unlink p q ino =>
      refine hremove p q ino ?_ hpre.2.1 hs
      rintro rfl
      exact hn hpre.2.2.2
  | rmdir p q ino =>
      simp only [Namespace.step] at hs
      split at hs
      · cases hs
        exact hlive
      · refine hremove p q ino ?_ hpre.2.1 hs
        rintro rfl
        exact hf hpre.2.2.2
  | write k pos data copied =>
      obtain ⟨hreg, hlen, -⟩ := hpre
      have hfk : ¬s.IsDir k := hreg.not_isDir
      exact hsame (h.wrote (h.core k hreg.1) hfk hlen hs).iset
  | openFile | closeFile | writeInode | evict | tick =>
      cases hs
      exact hlive
  | setSize | device => simp [Namespace.step] at hs

/-- **A file that is open after a step**: it is a file still, with the blocks it had. -/
theorem open_step (h : s.Inv) {op : Op} (hpre : s.Pre op) {r : Reply}
    (hs : s.step op = some (r, s')) {n : ℕ} (hn : s.opens n ≠ 0) :
    s'.Live n ∧ ¬s'.IsDir n ∧
      ∀ k, (s.node n).blk k ≠ RESERVED_DNO → (s'.node n).blk k = (s.node n).blk k := by
  obtain ⟨hlive, hf⟩ := h.opened n hn
  have hlive' := h.open_live hpre hs hn
  by_cases hop : writes op = true
  · cases op with
    | write k pos data copied =>
        obtain ⟨hreg, hlen, -⟩ := hpre
        have hfk : ¬s.IsDir k := hreg.not_isDir
        have hw := h.wrote (h.core k hreg.1) hfk hlen hs
        by_cases hnk : n = k
        · subst k
          refine ⟨hlive', ?_, hw.blocks⟩
          rw [IsDir, hw.mode]
          exact hf
        · refine ⟨hlive', ?_, fun j _ => ?_⟩
          · rw [IsDir, hw.other n hnk]
            exact hf
          · rw [hw.other n hnk]
    | _ => simp [writes] at hop
  · rcases h.file_step hpre (Bool.eq_false_of_not_eq_true hop) hs hlive' (.inl hf) with
      ⟨hkeep, -⟩ | ⟨hnew, -⟩
    · exact ⟨hlive', fun hd => hf (hkeep.isDir_iff.1 hd), fun k _ => blk_congr hkeep.attrs k⟩
    · exact absurd hlive hnew.free

end Namespace.Inv

/-! ### Handles -/

/-- **What a step leaves of the files that are open.** -/
structure World.KeepsOpen (w : World) (op : Op) (r : Reply) (w' : World) : Prop where
  /-- the number stays allocated, and is given to no other file -/
  number : ∀ n, 0 < w.opens n → w'.Live n ∧ r.2 ≠ some n
  /-- the blocks stay where they are -/
  blocks : ∀ n, 0 < w.opens n → ∀ k, (w.logical n).blk k ≠ RESERVED_DNO →
    (w'.logical n).blk k = (w.logical n).blk k
  /-- and belong to no other inode -/
  alone : ∀ n, 0 < w.opens n → ∀ m k l, w'.Live m → (w'.logical n).blk k ≠ RESERVED_DNO →
    (w'.logical n).blk k = (w'.logical m).blk l → n = m ∧ k = l
  /-- a write changes no other inode, and no byte of its blocks -/
  write : ∀ n pos data copied, op = .write n pos data copied →
    ∀ m, w.Live m → m ≠ n → w.Keeps m w'

/-- What a step leaves of the files that are open, in a world that stands for a tree. -/
theorem Mirrors.keepsOpen (h : Mirrors w s) {op : Op} (hop : op.Careful w) :
    wp (Yaf.step op) (fun r w' => w.KeepsOpen op r w') (fun _ => True) w := by
  have hpre := h.careful_pre hop
  rw [wp_iff]
  refine ⟨fun r w' hr => ?_, fun _ _ => trivial⟩
  obtain ⟨s', hs, h'⟩ := (h.step hop).ok hr
  have hopen : ∀ n, 0 < w.opens n → s.opens n ≠ 0 := by
    intro n hn
    rw [← h.opens]
    exact Nat.pos_iff_ne_zero.1 hn
  refine ⟨fun n hn => ?_, fun n hn k hk => ?_, fun n hn m k l hm hk he => ?_, ?_⟩
  · obtain ⟨hlive, -⟩ := h.inv.opened n (hopen n hn)
    refine ⟨h'.live_iff.2 (h.inv.open_live hpre hs (hopen n hn)), fun he => ?_⟩
    have hfree := Namespace.Inv.free_of_reply hs he
    rw [hlive.1] at hfree
    simp at hfree
  · obtain ⟨hlive, -⟩ := h.inv.opened n (hopen n hn)
    obtain ⟨hlive', -, hblk⟩ := h.inv.open_step hpre hs (hopen n hn)
    rw [h.logical hlive] at hk ⊢
    rw [h'.logical hlive']
    exact hblk k hk
  · have hlive' := h.inv.open_live hpre hs (hopen n hn)
    have hm' := h'.live_iff.1 hm
    rw [h'.logical hlive'] at hk he
    rw [h'.logical hm'] at he
    exact h'.inv.sole n m k l hlive' hm' hk he
  · rintro n pos data copied rfl
    exact (h.write_keeps hop).ok hr

/-- **Handles are safe**, in every state and at every step of a run that removes no open file and
in which the allocators find what they look for. -/
theorem handles_of_run {v : Volume} (h : v.Ok) {l : List (Op × Reply)}
    (hrun : Run step (fun w op => op.Careful w) (fresh v) l w) :
    (∀ n, 0 < w.opens n → w.Live n ∧ S_ISDIR (w.logical n).i_mode = false) ∧
      ∀ op r w', op.Careful w → (step op).run w = .ok (r, w') → w.KeepsOpen op r w' := by
  obtain ⟨s, hs, -⟩ := exists_written_of_run h hrun
  refine ⟨fun n hn => ?_, fun op r w' hop hr => (hs.keepsOpen hop).ok hr⟩
  rw [hs.opens] at hn
  obtain ⟨hlive, hf⟩ := hs.inv.opened n (Nat.pos_iff_ne_zero.1 hn)
  refine ⟨hs.live_iff.2 hlive, ?_⟩
  rw [hs.logical hlive]
  exact Bool.eq_false_of_not_eq_true hf

/-- Two handles on one file, and a file that is removed after it was closed. -/
theorem handles_small : ∃ l w, Run step (fun w op => op.Careful w) (fresh .small) l w ∧
    w.opens 2 = 2 ∧ w.opens 3 = 0 ∧
    (∀ n, 0 < w.opens n → w.Live n ∧ S_ISDIR (w.logical n).i_mode = false) ∧
      ∀ op r w', op.Careful w → (step op).run w = .ok (r, w') → w.KeepsOpen op r w' := by
  obtain ⟨l, w, hrun, hp⟩ := Volume.exists_run Volume.small_ok (fun w op => op.Careful w)
    [.create 1 (.letters 0) 0, .openFile 2, .create 1 (.letters 1) 0, .openFile 3, .write 3 0 [1] 1,
      .openFile 2, .closeFile 3, .unlink 1 (.letters 1) 3, .write 2 4096 [2] 1]
    (fun _ w => decide (w.opens 2 = 2) && decide (w.opens 3 = 0)) (by decide +kernel)
  rw [Bool.and_eq_true, decide_eq_true_eq, decide_eq_true_eq] at hp
  exact ⟨l, w, hrun, hp.1, hp.2, handles_of_run Volume.small_ok hrun⟩

/-- **The number of an open file is given to another** when the file is removed: the first file has
number 2, and so has the next one that is created, while the handle is still open. -/
theorem not_handles_unlinked : ∃ l w r w', Run step
    (fun w op => op.Pre w ∧ op.isCall = true ∧ op.overflows w = false ∧ op.overwrites w = false ∧
      op.starves w = false) (fresh .small) l w ∧
    0 < w.opens 2 ∧ Op.Pre w (.create 1 (.letters 1) 0) ∧
    (step (.create 1 (.letters 1) 0)).run w = .ok (r, w') ∧ r = (0, some 2) ∧
    ¬w.KeepsOpen (.create 1 (.letters 1) 0) r w' := by
  obtain ⟨l, w, hrun, hp⟩ := Volume.exists_run Volume.small_ok
    (fun w op => op.Pre w ∧ op.isCall = true ∧ op.overflows w = false ∧ op.overwrites w = false ∧
      op.starves w = false)
    [.create 1 (.letters 0) 0, .openFile 2, .unlink 1 (.letters 0) 2]
    (fun _ w => decide (0 < w.opens 2) && decide (Op.Pre w (.create 1 (.letters 1) 0)) &&
      match (step (.create 1 (.letters 1) 0)).run w with
      | .ok (r, _) => r == (0, some 2)
      | .error _ => false) (by decide +kernel)
  rw [Bool.and_eq_true, Bool.and_eq_true, decide_eq_true_eq, decide_eq_true_eq] at hp
  obtain ⟨⟨hopen, hpre⟩, hp⟩ := hp
  split at hp
  · rename_i r w' hr
    rw [beq_iff_eq] at hp
    refine ⟨l, w, r, w', hrun, hopen, hpre, hr, hp, fun hno => ?_⟩
    exact (hno.number 2 hopen).2 (by rw [hp])
  · simp at hp

end Yaf
