/-
**The driver and the tree have the same histories.**

`Yaf.Mirrors.step` says what one call of the driver does to the tree of directories.  Here the tree
is a system of its own, with a step program and a condition on the operations that mention neither
blocks nor bitmaps on a device, and it is compared with the driver over whole runs: each list of
operations and results that one of them can produce, the other can produce as well, and the states
it ends in look the same.

Main definitions:

* `Yaf.Namespace.Careful`, `Yaf.Namespace.program` — **the tree as a system**;
* `Yaf.World.Looks` — a volume looks like a tree.

Main results:

* `Yaf.World.Held.grants_eq`, `Yaf.Namespace.isSome_assign` — requests for blocks are granted as
  long as there are free ones;
* `Yaf.matches_tree` — **a volume and the tree go the same way**;
* `Yaf.replay_of_run` — **they have the same histories**.
-/

import Yaf.Contents
import Yaf.Lib.Match

set_option relaxedAutoImplicit false
set_option autoImplicit false

namespace Yaf

open Prog

variable {w : World} {s s' : Namespace} {op : Op}

/-! ### The tree as a system -/

namespace Namespace

/-- Whether a write asks for a block that is not found. -/
def starves (s : Namespace) : Op → Bool
  | .write n pos data _ => decide (pos + data.length ≤ 32768) && (s.mapTo n (pos / 4096)).isNone
  | _ => false

/-- **The operations on directories and files**, as far as the tree can tell. -/
def Careful (s : Namespace) (op : Op) : Prop :=
  s.Pre op ∧ op.isCall = true ∧ s.overflows op = false ∧ s.overwrites op = false ∧
    s.starves op = false

/-- **The program of an operation**: where the tree has no value, it faults. -/
def program (op : Op) : Prog Unit Namespace Reply := fun s => (s.step op).elim (.error ()) .ok

theorem program_ok {r : Reply} :
    (program op).run s = .ok (r, s') ↔ s.step op = some (r, s') := by
  cases h : s.step op with
  | none => simp [program, StateT.run, h]
  | some x => simp [program, StateT.run, h]

theorem program_error : (∃ e, (program op).run s = .error e) ↔ s.step op = none := by
  cases h : s.step op with
  | none => simp [program, StateT.run, h]
  | some x => simp [program, StateT.run, h]

end Namespace

/-! ### Requests for blocks -/

/-- **The driver grants requests for blocks** as long as the first block of the bitmap has a clear
bit. -/
theorem World.Held.grants_eq (h : w.Held) (hio : w.io = ioOk) (m : ℕ) :
    w.grants m = decide (m ≤ (Mem.clears w.view.dset 32768).length) := by
  have hpos := h.layout.dbp_pos
  induction m generalizing w with
  | zero => simp [World.grants]
  | succ m ih =>
      have hread : w.readable .bitmap (BID_DBP_MIN w.sb) = true := by
        refine w.readable_of_ioOk hio _ ?_
        have h₁ := h.layout.d_min_le
        have h₂ := h.layout.i_pos
        rw [BID_DBP_MIN_eq]
        omega
      rw [World.grants, hread, Bool.true_and, h.clears_dbit]
      cases hl : Mem.clears w.view.dset 32768 with
      | nil => simp
      | cons d l =>
          have hlt : d < 32768 := (Mem.mem_clears.1 (hl ▸ List.mem_cons_self)).1
          have htake : w.takeD = (UInt32.ofNat d, w.markD d true) := by
            unfold World.takeD
            rw [hread, h.clears_dbit, hl]
            rfl
          have hview := World.view_markD w (d := d) (by omega) true
          have hrest := ih (w := w.markD d true) (h.setBlock _ _) hio hpos
          rw [hview, View.dset_setD, Mem.clears_update_head hl] at hrest
          rw [htake, hrest]
          simp

/-- **The tree grants them** as long as one of the first 32768 blocks is free. -/
theorem Namespace.isSome_assign (s : Namespace) (n m k : ℕ) :
    (s.assign n m k).isSome = decide (m ≤ (Mem.clears s.dset 32768).length) := by
  induction m generalizing s k with
  | zero => simp [assign]
  | succ m ih =>
      rw [assign]
      cases hl : Mem.clears s.dset 32768 with
      | nil => simp
      | cons d l =>
          have hdset : (s.grant n k d).dset = Function.update s.dset d true := rfl
          have hrest := ih (s.grant n k d) (k + 1)
          rw [hdset, Mem.clears_update_head hl] at hrest
          rw [List.head?_cons, Option.bind_some, hrest]
          simp

namespace Mirrors

/-- Whether a write asks for a block in vain. -/
theorem starves_eq (h : Mirrors w s) (hpre : s.Pre op) : op.starves w = s.starves op := by
  cases op with
  | write n pos data copied =>
      have hi := h.inode? hpre.1.1
      have hmap : (s.mapTo n (pos / 4096)).isSome = w.grants (pos / 4096 + 1 -
          countAssigned (s.node n) YAF_IBLOCKS 0) := by
        rw [Namespace.mapTo, Namespace.isSome_assign, h.held.grants_eq h.io, h.dset]
      have hnone : (s.mapTo n (pos / 4096)).isNone = !(s.mapTo n (pos / 4096)).isSome := by
        rw [Option.not_isSome]
      rw [Op.starves, Namespace.starves, hnone, hmap, World.wantsBlocks, hi]
      dsimp only
      rw [MAX_FILESIZE_eq, YAF_BLOCK_SIZE_eq]
      split
      · rw [decide_eq_false (by omega)]
        rfl
      · rw [decide_eq_true (by omega), Bool.true_and]
  | _ => rfl

/-- **The driver and the tree allow the same operations.** -/
theorem careful_iff (h : Mirrors w s) : op.Careful w ↔ s.Careful op := by
  constructor
  · intro hop
    have hpre := h.careful_pre hop
    obtain ⟨-, hcall, hov, hread, -, hstarve⟩ := hop
    rw [h.overflows_eq hpre] at hov
    rw [h.overwrites_eq hpre] at hread
    rw [h.starves_eq hpre] at hstarve
    exact ⟨hpre, hcall, hov, hread, hstarve⟩
  · rintro ⟨hpre, hcall, hov, hread, hstarve⟩
    obtain ⟨hpre', hopen⟩ := (h.pre_iff hcall).2 hpre
    rw [← h.overflows_eq hpre] at hov
    rw [← h.overwrites_eq hpre] at hread
    rw [← h.starves_eq hpre] at hstarve
    exact ⟨hpre', hcall, hov, hread, hopen, hstarve⟩

end Mirrors

/-! ### What a volume looks like -/

/-- **A volume looks like a tree**: it has the inodes of the tree, a lookup finds what the tree
says, a listing emits it, a known byte is read, and the next call of the VFS is allowed, and stops
with a fault, when the tree says so. -/
structure World.Looks (w : World) (s : Namespace) : Prop where
  live : ∀ n, w.Live n ↔ s.Live n
  logical : ∀ n, s.Live n → w.logical n = s.node n
  bound : ∀ p q, s.holds S_ISDIR p → w.boundTo p q = s.bound p q
  entries : ∀ p, s.Live p → s.IsDir p → w.entries (w.logical p) =
    (List.range (s.count p)).filterMap fun j => (s.slot p j).map entryOf
  reads : ∀ n off b, s.bytes n off = some b →
    value (vfs_read n off) (w.hold n) = .ok (.ok (some b))
  careful : ∀ op, op.Careful w ↔ s.Careful op
  faults : ∀ op, op.Careful w → ((∃ e, (step op).run w = .error e) ↔ s.step op = none)

/-- **A volume and the tree go the same way.** -/
theorem matches_tree : Matches Mirrors step (fun w op => op.Careful w) Namespace.program
    Namespace.Careful := by
  refine ⟨fun h => h.careful_iff, fun h hop => ?_⟩
  refine wp_mono (h.step hop) ?_ fun e he => Namespace.program_error.2 he.1
  rintro r w' ⟨s', hs, h'⟩
  exact ⟨s', Namespace.program_ok.2 hs, h'⟩

theorem Mirrors.looks (h : Mirrors w s) : w.Looks s where
  live _ := h.live_iff
  logical _ hn := h.logical hn
  bound _ q hp := h.boundTo_eq h.inv hp q
  entries _ hp hd := h.entries_eq hp hd
  reads _ _ _ hb := h.value_read hb
  careful _ := h.careful_iff
  faults _ hop := (matches_tree.faults_iff h hop).trans Namespace.program_error

/-! ### Runs -/

variable {v : Volume}

/-- A fresh volume looks like its tree. -/
theorem Volume.mirrors_fresh (h : v.Ok) : Mirrors (fresh v) v.tree := by
  rw [Volume.fresh_eq h]
  exact (Volume.models h).toMirrors

/-- **The driver and the tree have the same histories**: what the driver can return to a list of
operations on a fresh volume, the tree can, and the other way round; and where this ends, the
volume looks like the tree. -/
theorem replay_of_run (h : v.Ok) :
    (∀ l w, Run step (fun w op => op.Careful w) (fresh v) l w →
      ∃ s, Run Namespace.program Namespace.Careful v.tree l s ∧ w.Looks s) ∧
    ∀ l s, Run Namespace.program Namespace.Careful v.tree l s →
      ∃ w, Run step (fun w op => op.Careful w) (fresh v) l w ∧ w.Looks s := by
  have hstart : Mirrors (fresh v) v.tree := Volume.mirrors_fresh h
  constructor
  · intro l w hrun
    obtain ⟨s, hrun', hs⟩ := matches_tree.run hstart hrun
    exact ⟨s, hrun', hs.looks⟩
  · intro l s hrun
    obtain ⟨w, hrun', hs⟩ := matches_tree.symm.run hstart hrun
    exact ⟨w, hrun', hs.looks⟩

/-- A history of the driver that is one of the tree. -/
theorem replay_small : ∃ l w s, Run step (fun w op => op.Careful w) (fresh .small) l w ∧
    w.boundTo 2 (.letters 1) = some 3 ∧
    Run Namespace.program Namespace.Careful Volume.small.tree l s ∧ w.Looks s := by
  obtain ⟨l, w, hrun, hp⟩ := Volume.exists_run Volume.small_ok (fun w op => op.Careful w)
    [.mkdir 1 (.letters 0) 0, .create 2 (.letters 1) 0, .write 3 0 [1, 2] 2,
      .rmdir 1 (.letters 0) 2]
    (fun _ w => decide (w.boundTo 2 (.letters 1) = some 3)) (by decide +kernel)
  rw [decide_eq_true_eq] at hp
  obtain ⟨s, hrun', hs⟩ := (replay_of_run Volume.small_ok).1 l w hrun
  exact ⟨l, w, s, hrun, hp, hrun', hs⟩

end Yaf
