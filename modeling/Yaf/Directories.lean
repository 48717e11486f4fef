/-
**What runs keep of the directories.**

The invariant of the tree, read off the bitmaps, the inodes and the slots on the device.

Main definitions:

* `Yaf.World.dentries` — the number of live dentries of a directory;
* `Yaf.World.LinksExact` — **link counts are exact**;
* `Yaf.World.Released` — an inode number and its blocks are free again.

Main results:

* `Yaf.linksExact_of_run` — link counts are exact after every run, so that `yaf_rmdir` refuses
  exactly the directories with live dentries, and a removal releases the inode.
-/

import Yaf.Simulation
import Yaf.Listing
import Yaf.Accounting

set_option relaxedAutoImplicit false
set_option autoImplicit false

namespace Yaf

open Prog

variable {w w' : World} {s s' : Namespace} {p j ino : ℕ}

/-! ### Live dentries -/

/-- What a slot of the tree emits. -/
def entryOf (e : List UInt8 × ℕ) : DirEntry := ⟨e.1, e.2⟩

/-- What a slot emits is what the tree says. -/
theorem Entry.slotEntry_eq {b : Block} {off : ℕ} {e : Option (List UInt8 × ℕ)} (he : Entry b off e)
    (hlen : ∀ x, e = some x → x.1.length ≤ 24) : slotEntry b off = e.map entryOf := by
  cases e with
  | none =>
      have hfree : ¬d_ino b off ≠ RESERVED_INO := not_not.2 he
      rw [slotEntry, if_neg hfree]
      rfl
  | some x =>
      obtain ⟨name, ino⟩ := x
      obtain ⟨h₁, rfl, h₃, h₄⟩ := he
      have hle : name.length ≤ 24 := hlen _ rfl
      have hname : emittedName b off = name := by
        rw [emittedName, h₃]
        refine List.ext_getElem (by simp) fun i h h' => ?_
        rw [List.getElem_map, List.getElem_range, h₄ i (by omega), List.getD_eq_getElem _ _ h']
      rw [slotEntry, if_pos h₁, hname]
      rfl

namespace Mirrors

/-- **The live dentries of a directory are the occupied slots of the tree.** -/
theorem entries_eq (h : Mirrors w s) {p : ℕ} (hp : s.Live p) (hd : s.IsDir p) :
    w.entries (w.logical p) =
      (List.range (s.count p)).filterMap fun j => (s.slot p j).map entryOf := by
  obtain ⟨hsize, hle⟩ := h.inv.count_le hp hd
  have hslots : min (slots (s.node p).i_size) MAX_DENTRYS - 0 = s.count p := by
    rw [slots, MAX_DENTRYS_eq]
    omega
  rw [h.logical hp, World.entries, World.entriesFrom, hslots, ← List.range_eq_range']
  refine List.filterMap_congr fun j hj => ?_
  have hentry := h.shows p j hp hd (List.mem_range.1 hj)
  exact hentry.slotEntry_eq fun x hx => (h.inv.name p j x hx).2.2

end Mirrors

namespace World

/-- The number of live dentries of a directory. -/
def dentries (w : World) (n : ℕ) : ℕ := (w.entries (w.logical n)).length

/-- **Link counts are exact**: a directory has one link, and one more for each live dentry, and a
file has one. -/
def LinksExact (w : World) : Prop :=
  ∀ n, w.Live n →
    (S_ISDIR (w.logical n).i_mode = true → (w.logical n).i_nlink.toNat = 1 + w.dentries n) ∧
    (S_ISDIR (w.logical n).i_mode = false → (w.logical n).i_nlink = 1)

/-- The inode number is free again, and so are the blocks the inode `i` had. -/
def Released (w : World) (n : ℕ) (i : Inode) : Prop :=
  w.view.iset n = false ∧ ∀ k < YAF_IBLOCKS, k * YAF_BLOCK_SIZE < i.i_size →
    w.view.dset (i.blk k).toNat = false

end World

/-- The allocated inodes are those of the tree. -/
theorem Tracks.live_iff (h : Tracks w s) {n : ℕ} : w.Live n ↔ s.Live n := by
  rw [World.Live, Namespace.Live, h.iset]

namespace Models

theorem dentries_eq (h : Models w s) {p : ℕ} (hp : s.Live p) (hd : s.IsDir p) :
    w.dentries p = Forest.degree s.slot p (s.count p) := by
  rw [World.dentries, h.entries_eq hp hd, Forest.length_filterMap]

theorem linksExact (h : Models w s) : w.LinksExact := by
  intro n hn
  have hlive := h.live_iff.1 hn
  rw [h.logical hlive]
  constructor
  · intro hd
    rw [h.dentries_eq hlive hd]
    exact h.inv.links n hlive hd
  · intro hd
    refine h.inv.link n hlive fun hdir => ?_
    rw [Namespace.IsDir, hd] at hdir
    simp at hdir

/-- More than one link is a live dentry. -/
theorem nlink_iff (h : Models w s) {n : ℕ} (hn : s.Live n) (hd : s.IsDir n) :
    (s.node n).i_nlink > 1 ↔ 0 < w.dentries n := by
  have hlinks := h.inv.links n hn hd
  have hone : (1 : UInt32).toNat = 1 := rfl
  rw [h.dentries_eq hn hd, gt_iff_lt, UInt32.lt_iff_toNat_lt, hone]
  omega

/-- **`yaf_rmdir` refuses exactly the directories with live dentries.** -/
theorem rmdir (h : Models w s) {p ino : ℕ} {q : Qstr} (hop : (Op.rmdir p q ino).Tame w) :
    wp (Yaf.step (.rmdir p q ino)) (fun r _ => r.1 = -ENOTEMPTY ↔ 0 < w.dentries ino)
      (fun _ => False) w := by
  obtain ⟨-, hb, hino⟩ := (h.tame_iff.1 hop).1
  obtain ⟨j, -, hrm⟩ := Namespace.remove_of_bound hb
  have hiff := h.nlink_iff (h.inv.core ino hino.1) hino.2
  have hstep := h.step hop
  by_cases hlink : (s.node ino).i_nlink > 1
  · simp only [Namespace.step, if_pos hlink] at hstep
    refine wp_mono hstep ?_ fun _ hno => by simp at hno
    rintro r w' ⟨s', hs, -⟩
    cases hs
    exact iff_of_true rfl (hiff.1 hlink)
  · simp only [Namespace.step, if_neg hlink, hrm] at hstep
    refine wp_mono hstep ?_ fun _ hno => by simp at hno
    rintro r w' ⟨s', hs, -⟩
    cases hs
    exact iff_of_false (by decide) fun hpos => hlink (hiff.2 hpos)

/-- What is left of the inode of a removed entry. -/
theorem released (h : Models w' (s.drop p j ino)) : w'.Released ino (s.node ino) := by
  refine ⟨?_, fun k hk hlt => ?_⟩
  · rw [h.iset]
    exact Function.update_self _ _ _
  · have hmem : ((s.node ino).blk k).toNat ∈ (s.node ino).sized := by
      refine List.mem_map.2 ⟨k, List.mem_range.2 ?_, rfl⟩
      rw [YAF_BLOCK_SIZE_eq] at hlt
      omega
    rw [h.dset]
    simp [Namespace.drop, hmem]

/-- **A removal that succeeds releases the inode.** -/
theorem victim (h : Models w s) {op : Op} (hop : op.Tame w) {ino : ℕ}
    (hv : op.victim = some ino) :
    wp (Yaf.step op) (fun r w' => r.1 = 0 → w'.Released ino (w.logical ino))
      (fun _ => False) w := by
  have hpre := (h.tame_iff.1 hop).1
  have hstep := h.step hop
  cases op with
  | unlink p q n =>
      obtain rfl : n = ino := Option.some.inj hv
      obtain ⟨-, hb, hino, -⟩ := hpre
      obtain ⟨j, -, hrm⟩ := Namespace.remove_of_bound hb
      rw [h.logical (h.inv.core n hino.1)]
      simp only [Namespace.step, hrm] at hstep
      refine wp_mono hstep ?_ fun _ hno => by simp at hno
      rintro r w' ⟨s', hs, hm⟩ -
      cases hs
      exact released hm
  | rmdir p q n =>
      obtain rfl : n = ino := Option.some.inj hv
      obtain ⟨-, hb, hino⟩ := hpre
      obtain ⟨j, -, hrm⟩ := Namespace.remove_of_bound hb
      rw [h.logical (h.inv.core n hino.1)]
      simp only [Namespace.step, hrm] at hstep
      split at hstep
      · refine wp_mono hstep ?_ fun _ hno => by simp at hno
        rintro r w' ⟨s', hs, -⟩ hr
        cases hs
        exact absurd hr (by decide)
      · refine wp_mono hstep ?_ fun _ hno => by simp at hno
        rintro r w' ⟨s', hs, hm⟩ -
        cases hs
        exact released hm
  | _ => simp [Op.victim] at hv

end Models

/-- **Link counts are exact** in every state of a run of operations on directories. -/
theorem linksExact_of_run {v : Volume} (h : v.Ok) {l : List (Op × Reply)} {w : World}
    (hrun : Run step (fun w op => op.Tame w) (fresh v) l w) :
    w.LinksExact ∧
    (∀ p q ino, (Op.rmdir p q ino).Tame w → wp (step (.rmdir p q ino))
      (fun r _ => r.1 = -ENOTEMPTY ↔ 0 < w.dentries ino) (fun _ => False) w) ∧
    ∀ op ino, op.Tame w → op.victim = some ino → wp (step op)
      (fun r w' => r.1 = 0 → w'.Released ino (w.logical ino)) (fun _ => False) w := by
  obtain ⟨s, hs⟩ := exists_models_of_run h hrun
  exact ⟨hs.linksExact, fun p q ino hop => hs.rmdir hop, fun op ino hop hv => hs.victim hop hv⟩

/-- A directory that is removed once the file in it is gone. -/
theorem linksExact_small : ∃ l w, Run step (fun w op => op.Tame w) (fresh .small) l w ∧
    l.map Prod.snd = [(0, some 2), (0, some 3), (-ENOTEMPTY, none), (0, none), (0, none)] ∧
    w.LinksExact := by
  obtain ⟨l, w, hrun, hp⟩ := Volume.exists_run Volume.small_ok (fun w op => op.Tame w)
    [.mkdir 1 (.letters 0) 0, .create 2 (.letters 1) 0, .rmdir 1 (.letters 0) 2,
      .unlink 2 (.letters 1) 3, .rmdir 1 (.letters 0) 2]
    (fun l _ => l.map Prod.snd ==
      [(0, some 2), (0, some 3), (-ENOTEMPTY, none), (0, none), (0, none)]) (by decide +kernel)
  exact ⟨l, w, hrun, by simpa using hp, (linksExact_of_run Volume.small_ok hrun).1⟩

end Yaf
