/-
**What a device held before it was formatted does not matter.**

`mkfs` writes the superblock, the bitmaps and the slot of the root inode.  The other slots and the
data blocks keep what the device held.  Two devices that differ only there stand for the same tree
after the mount, and every step of the one is a step of the other, so no operation tells them
apart.

Main definitions:

* `Yaf.Volume.over` — the same volume on a device that held something else;
* `Yaf.World.Alike` — **two worlds that cannot be told apart**: inodes, listings and results.

Main results:

* `Yaf.alike_of_run` — runs on such devices go through worlds that cannot be told apart.
-/

import Yaf.Directories

set_option relaxedAutoImplicit false
set_option autoImplicit false

namespace Yaf

open Prog

variable {w w' : World} {s s' : Namespace}

/-! ### Listings -/

section Listing

variable {dir : ℕ} {di : Inode} (hi : w.inode? dir = some di) (hd : S_ISDIR di.i_mode = true)

include hi hd

/-- **A listing from the start**, with any room. -/
theorem value_iterate_start (hs : di.i_size ≤ 32768) (hread : w.DirReadable di) (parent : ℕ)
    (room : Option ℕ) : value (yaf_iterate_shared dir parent ⟨0, room, []⟩) w =
      .ok (0, if (dir_emit_dots ⟨0, room, []⟩ dir parent).1 then
          { emitAll (dir_emit_dots ⟨0, room, []⟩ dir parent).2 (w.entries di) with
            pos := 32 * slots di.i_size + 2 }
        else (dir_emit_dots ⟨0, room, []⟩ dir parent).2) := by
  have hpos : (dir_emit_dots ⟨0, room, []⟩ dir parent).1 = true →
      (dir_emit_dots ⟨0, room, []⟩ dir parent).2.pos = 2 := by
    rcases room with - | - | - | n
    · exact fun _ => rfl
    · exact fun h => absurd h Bool.false_ne_true
    · exact fun h => absurd h Bool.false_ne_true
    · exact fun _ => rfl
  cases hdots : dir_emit_dots ⟨0, room, []⟩ dir parent with
  | mk ok ctx =>
      rw [hdots] at hpos
      cases ok with
      | false =>
          rw [yaf_iterate_shared, value_bind_of_ok (run_getInode hi), if_pos hd, hdots]
          rfl
      | true =>
          have hpos₂ : ctx.pos = 2 := hpos rfl
          have hstart : ctx.pos - 2 = 0 := by omega
          refine value_of_wp ?_
          rw [wp_iterate hi hd hdots (by rw [hstart]; rfl), hstart]
          refine wp_mono (wp_iterDir hread _) ?_ fun _ h => absurd hs (Nat.not_le.2 h)
          rintro r w' ⟨-, rfl⟩
          rfl

end Listing

/-! ### Worlds that stand for one tree -/

/-- **Two worlds that cannot be told apart.**  The same inode numbers are allocated, with the same
inodes; directories are listed in the same way; the same operations are allowed, and they have the
same results. -/
structure World.Alike (w w' : World) : Prop where
  iset : w'.view.iset = w.view.iset
  logical : ∀ n, w.Live n → w'.logical n = w.logical n
  listing : ∀ dir parent room, w.holds S_ISDIR dir = true →
    value (yaf_iterate_shared dir parent ⟨0, room, []⟩) w' =
      value (yaf_iterate_shared dir parent ⟨0, room, []⟩) w
  calls : ∀ dir parent rooms l, w.holds S_ISDIR dir = true → (∀ k, 1 ≤ rooms k) →
    (Listing w' dir parent rooms 0 0 l ↔ Listing w dir parent rooms 0 0 l)
  tame : ∀ op, Op.Tame w' op ↔ Op.Tame w op
  reply : ∀ op r, Op.Tame w op → (value (step op) w' = .ok r ↔ value (step op) w = .ok r)

namespace Models

theorem dirReadable (h : Models w s) {p : ℕ} (hp : s.holds S_ISDIR p) :
    w.DirReadable (s.node p) := by
  intro k hk hlt
  have hlive := h.inv.core p hp.1
  obtain ⟨hsize, hle⟩ := h.inv.count_le hlive hp.2
  have hres : (s.node p).blk k ≠ RESERVED_DNO := by
    refine ((h.inv.dir p hlive hp.2).dense k hk).2 ?_
    rw [slots] at hlt
    omega
  have hdev := (h.inv.owned p k hlive hres).2 hp.2
  rw [← h.sb] at hdev
  exact h.readable .scan hdev

/-- What a step returns is what the step of the tree returns. -/
theorem value_iff (h : Models w s) {op : Op} (hop : op.Tame w) (r : Reply) :
    value (Yaf.step op) w = .ok r ↔ ∃ s', s.step op = some (r, s') := by
  have hstep := h.step hop
  rw [value]
  cases hrun : (Yaf.step op).run w with
  | error e =>
      rw [hstep.error hrun]
      simp
  | ok x =>
      obtain ⟨r', w'⟩ := x
      obtain ⟨s', hs, -⟩ := hstep.ok hrun
      rw [hs]
      dsimp only
      constructor
      · intro he
        cases he
        exact ⟨s', rfl⟩
      · rintro ⟨s'', hs'⟩
        cases hs'
        rfl

/-- **Two worlds that stand for one tree cannot be told apart.** -/
theorem alike (h : Models w s) (h' : Models w' s) : w.Alike w' := by
  have hentries : ∀ p, s.holds S_ISDIR p → w'.entries (s.node p) = w.entries (s.node p) := by
    intro p hp
    have hlive := h.inv.core p hp.1
    have he := h.entries_eq hlive hp.2
    have he' := h'.entries_eq hlive hp.2
    rw [h.logical hlive] at he
    rw [h'.logical hlive] at he'
    exact he'.trans he.symm
  have hsize : ∀ p, s.holds S_ISDIR p → (s.node p).i_size ≤ 32768 := fun p hp =>
    (h.inv.dir p (h.inv.core p hp.1) hp.2).le
  refine ⟨?_, fun n hn => ?_, fun dir parent room hdir => ?_, fun dir parent rooms l hdir hr => ?_,
    fun op => ?_, fun op r hop => ?_⟩
  · rw [h.iset, h'.iset]
  · have hlive := h.live_iff.1 hn
    rw [h.logical hlive, h'.logical hlive]
  · have hp := h.holds_iff.1 hdir
    rw [value_iterate_start (h.inode? hp.1) hp.2 (hsize dir hp) (h.dirReadable hp),
      value_iterate_start (h'.inode? hp.1) hp.2 (hsize dir hp) (h'.dirReadable hp),
      hentries dir hp]
  · have hp := h.holds_iff.1 hdir
    rw [listing_of_readable (h.inode? hp.1) hp.2 hr (hsize dir hp) (h.dirReadable hp),
      listing_of_readable (h'.inode? hp.1) hp.2 hr (hsize dir hp) (h'.dirReadable hp),
      hentries dir hp]
  · rw [h.tame_iff, h'.tame_iff]
  · have hop' : op.Tame w' := h'.tame_iff.2 (h.tame_iff.1 hop)
    rw [h.value_iff hop, h'.value_iff hop']

end Models

/-! ### Runs -/

/-- The same volume, made on a device that held `old`. -/
def Volume.over (v : Volume) (old : Disk) : Volume := { v with old := old }

/-- **Runs on two devices** that differ only in what they held before they were formatted: each
step of the one is a step of the other, with the same result, between worlds that cannot be told
apart. -/
theorem alike_of_run {v : Volume} (h : v.Ok) (old : Disk) {l : List (Op × Reply)} {w : World}
    (hrun : Run step (fun w op => op.Tame w) (fresh v) l w) :
    ∃ w', Run step (fun w op => op.Tame w) (fresh (v.over old)) l w' ∧ w.Alike w' := by
  have h' : (v.over old).Ok := ⟨h.le_bnr, h.bnr_lt⟩
  rw [Volume.fresh_eq h] at hrun
  rw [Volume.fresh_eq h']
  -- both worlds stand for the same tree throughout
  have hboth : ∃ w' s, Run step (fun w op => op.Tame w) (v.over old).mounted l w' ∧
      Models w s ∧ Models w' s := by
    induction hrun with
    | nil => exact ⟨_, v.tree, .nil, Volume.models h, Volume.models h'⟩
    | @snoc l w w₁ op r _ hop hr ih =>
        obtain ⟨w', s, hrun', hs, hs'⟩ := ih
        have hop' : op.Tame w' := hs'.tame_iff.2 (hs.tame_iff.1 hop)
        obtain ⟨s₁, hstep, hs₁⟩ := (hs.step hop).ok hr
        cases hr' : (step op).run w' with
        | error e =>
            have hnone := (hs'.step hop').error hr'
            rw [hstep] at hnone
            simp at hnone
        | ok x =>
            obtain ⟨r', w₁'⟩ := x
            obtain ⟨s₁', hstep', hs₁'⟩ := (hs'.step hop').ok hr'
            rw [hstep] at hstep'
            cases hstep'
            exact ⟨w₁', s₁, hrun'.snoc hop' hr', hs₁, hs₁'⟩
  obtain ⟨w', s, hrun', hs, hs'⟩ := hboth
  exact ⟨w', hrun', hs.alike hs'⟩

/-- The littered device has an old inode where the second one is made. -/
theorem alike_small : ∃ l w w', Run step (fun w op => op.Tame w) (fresh .small) l w ∧
    Run step (fun w op => op.Tame w) (fresh .littered) l w' ∧
    l.map Prod.snd = [(0, some 2), (0, some 3), (0, none), (0, none), (0, none)] ∧
    w.Alike w' := by
  obtain ⟨l, w, hrun, hp⟩ := Volume.exists_run Volume.small_ok (fun w op => op.Tame w)
    [.mkdir 1 (.letters 0) 0, .create 2 (.letters 1) 0, .writeInode 2, .lookup 1 (.letters 0),
      .unlink 2 (.letters 1) 3]
    (fun l _ => l.map Prod.snd ==
      [(0, some 2), (0, some 3), (0, none), (0, none), (0, none)]) (by decide +kernel)
  obtain ⟨w', hrun', hlike⟩ := alike_of_run Volume.small_ok Volume.littered.old hrun
  exact ⟨l, w, w', hrun, hrun', by simpa using hp, hlike⟩

end Yaf
