/-
**The tree of names and the bitmaps agree.**

In runs of operations on directories no file has a block.  Then the marked data blocks are those of
the directories, and the marked inode numbers are those of the entries, the root's and the reserved
one.

Main definitions:

* `Yaf.Namespace.Bare` — no file has a block, and every marked block has an owner;
* `Yaf.World.dentryAt` — the live dentry at a slot of a directory;
* `Yaf.World.Consistent` — **the bitmaps, the inodes and the slots agree**.

Main results:

* `Yaf.Namespace.Bare.step` — operations on directories give files no blocks;
* `Yaf.consistent_of_run` — **every state of a run is consistent**.
-/

import Yaf.Directories

set_option relaxedAutoImplicit false
set_option autoImplicit false

namespace Yaf

open Prog

variable {w : World} {s s' : Namespace}

/-! ### Owners of blocks -/

namespace Namespace

/-- **No file has a block, and every block in use is one of a directory.** -/
structure Bare (s : Namespace) : Prop where
  file : ∀ n, s.Live n → ¬s.IsDir n → ∀ k, (s.node n).blk k = RESERVED_DNO
  owner : ∀ d, s.dset d = true → ∃ n k, s.Live n ∧ (s.node n).blk k ≠ RESERVED_DNO ∧
    ((s.node n).blk k).toNat = d

namespace Bare

/-- Only the blocks matter. -/
theorem congr (h : s.Bare) (hiset : s'.iset = s.iset) (hdset : s'.dset = s.dset)
    (hnode : ∀ n, s.Live n → (s'.node n).i_mode = (s.node n).i_mode ∧
      ∀ k, (s'.node n).blk k = (s.node n).blk k) : s'.Bare := by
  have hlive : ∀ n, s'.Live n ↔ s.Live n := by
    intro n
    rw [Live, Live, hiset]
  constructor
  · intro n hn hf k
    rw [hlive] at hn
    obtain ⟨hmode, hblk⟩ := hnode n hn
    rw [IsDir, hmode] at hf
    rw [hblk]
    exact h.file n hn hf k
  · intro d hd
    rw [hdset] at hd
    obtain ⟨n, k, hn, hk, he⟩ := h.owner d hd
    obtain ⟨-, hblk⟩ := hnode n hn
    rw [← hblk] at hk he
    exact ⟨n, k, (hlive n).2 hn, hk, he⟩

/-- An inode in memory that keeps its blocks. -/
theorem edit (h : s.Bare) {n : ℕ} {f : Inode → Inode}
    (hmode : (f (s.node n)).i_mode = (s.node n).i_mode)
    (hblk : ∀ k, (f (s.node n)).blk k = (s.node n).blk k) : (s.edit n f).Bare := by
  refine h.congr rfl rfl fun m _ => ?_
  rw [Namespace.edit]
  dsimp only
  rw [Function.update_apply]
  split
  · subst m
    exact ⟨hmode, hblk⟩
  · exact ⟨rfl, fun _ => rfl⟩

/-- A block for a directory. -/
theorem attach (h : s.Bare) {p d : ℕ} (hp : s.Live p) (hd : s.IsDir p)
    (hk : (s.node p).i_size / 4096 < 8)
    (hfree : (s.node p).blk ((s.node p).i_size / 4096) = RESERVED_DNO) (hlt : d < 32768) :
    (s.attach p d).Bare := by
  obtain ⟨hnat, hres⟩ := ofNat_clear hlt
  have hnode : ∀ n, n ≠ p → (s.attach p d).node n = s.node n := fun n hn =>
    Function.update_of_ne hn _ _
  have hblk : ∀ k, ((s.attach p d).node p).blk k =
      if k = (s.node p).i_size / 4096 then UInt32.ofNat d else (s.node p).blk k := by
    intro k
    have hself : (s.attach p d).node p = (({ (s.node p).setBlk ((s.node p).i_size / 4096)
        (UInt32.ofNat d) with i_size := (s.node p).i_size + 32 } : Inode).setTimes s.now) :=
      Function.update_self _ _ _
    rw [hself]
    exact blk_setBlk (s.node p) hk _ k
  constructor
  · intro n hn hf k
    by_cases hnp : n = p
    · subst n
      refine absurd ?_ hf
      have hmode : ((s.attach p d).node p).i_mode = (s.node p).i_mode := by
        simp only [Namespace.attach, Namespace.edit, Function.update_self]
        rfl
      rw [IsDir, hmode]
      exact hd
    · rw [IsDir, hnode n hnp] at hf
      rw [hnode n hnp]
      exact h.file n hn hf k
  · intro e he
    have hset : (s.attach p d).dset e = if e = d then true else s.dset e :=
      Function.update_apply _ _ _ _
    rw [hset] at he
    split at he
    · refine ⟨p, (s.node p).i_size / 4096, hp, ?_, ?_⟩
      · rw [hblk, if_pos rfl]
        exact hres
      · rw [hblk, if_pos rfl, hnat, ‹e = d›]
    · obtain ⟨n, k, hn, hk', he'⟩ := h.owner e he
      refine ⟨n, k, hn, ?_⟩
      by_cases hnp : n = p
      · subst n
        have hne : k ≠ (s.node p).i_size / 4096 := by
          rintro rfl
          exact hk' hfree
        rw [hblk, if_neg hne]
        exact ⟨hk', he'⟩
      · rw [hnode n hnp]
        exact ⟨hk', he'⟩

/-- A search for a free slot. -/
theorem getFree (h : s.Bare) (hinv : s.Inv) {p : ℕ} (hp : s.Live p) (hd : s.IsDir p) {j : ℕ}
    (hg : s.getFree p = some (j, s')) : s'.Bare := by
  obtain ⟨hsize, hle⟩ := hinv.count_le hp hd
  obtain ⟨-, rfl⟩ | ⟨-, hroom, ⟨halign, d, hc, -, rfl⟩ | ⟨-, rfl⟩⟩ := getFree_cases hg
  · exact h
  · have hlt := (Mem.mem_clears.1 (List.mem_of_head? hc)).1
    have hk : (s.node p).i_size / 4096 < 8 := by omega
    refine h.attach hp hd hk ?_ hlt
    by_contra hne
    have hbelow := ((hinv.dir p hp hd).dense _ hk).1 hne
    omega
  · exact h.edit rfl fun _ => rfl

/-- A new inode has no blocks. -/
theorem link (h : s.Bare) {p j n : ℕ} {q : Qstr} (mode : UInt16) (hp : s.Live p) (hd : s.IsDir p)
    (hn : s.iset n = false) : (s.link p j q n mode).Bare := by
  have hnlive : ¬s.Live n := by
    rintro ⟨hset, -⟩
    rw [hn] at hset
    exact Bool.false_ne_true hset
  have hne : ∀ m, s.Live m → m ≠ n := by
    rintro m hm rfl
    exact hnlive hm
  have hnode : ∀ m, (s.link p j q n mode).node m =
      if m = p then { (s.node p).setTimes s.now with i_nlink := (s.node p).i_nlink + 1 }
      else if m = n then s.newInode (s.node p) mode else s.node m := by
    intro m
    simp only [Namespace.link, Namespace.edit, Namespace.put, Function.update_apply,
      if_neg (hne p hp)]
  have hiset : ∀ m, (s.link p j q n mode).iset m = if m = n then true else s.iset m := fun m =>
    Function.update_apply _ _ _ _
  constructor
  · intro m hm hf k
    rw [IsDir, hnode] at hf
    rw [hnode]
    split
    · rw [if_pos ‹m = p›] at hf
      exact absurd hd hf
    · rw [if_neg ‹¬m = p›] at hf
      split
      · rw [newInode, Inode.blk]
        split <;> rfl
      · rw [if_neg ‹¬m = n›] at hf
        rw [Live, hiset, if_neg ‹¬m = n›] at hm
        exact h.file m hm hf k
  · intro d hd'
    obtain ⟨m, k, hm, hk, he⟩ := h.owner d hd'
    refine ⟨m, k, ?_, ?_⟩
    · rw [Live, hiset, if_neg (hne m hm)]
      exact hm
    · rw [hnode, if_neg (hne m hm)]
      split
      · subst m
        exact ⟨hk, he⟩
      · exact ⟨hk, he⟩

/-- **A removal releases all blocks of the inode.** -/
theorem drop (h : s.Bare) (hinv : s.Inv) (p j ino : ℕ) : (s.drop p j ino).Bare := by
  have hnode : ∀ m, (s.drop p j ino).node m = if m = p then
      { (s.node p).setTimes s.now with i_nlink := (s.node p).i_nlink - 1 } else s.node m := fun m =>
    Function.update_apply _ _ _ _
  have hiset : ∀ m, (s.drop p j ino).iset m = if m = ino then false else s.iset m := fun m =>
    Function.update_apply _ _ _ _
  have hblk : ∀ m k, ((s.drop p j ino).node m).blk k = (s.node m).blk k := by
    intro m k
    rw [hnode]
    split
    · subst m
      rfl
    · rfl
  constructor
  · intro m hm hf k
    rw [Live, hiset] at hm
    split at hm
    · exact absurd hm.1 Bool.false_ne_true
    rw [hblk]
    refine h.file m hm (fun hd => hf ?_) k
    rw [IsDir, hnode]
    split
    · subst m
      exact hd
    · exact hd
  · intro d hd
    have hset : (s.drop p j ino).dset d = (s.dset d && !decide (d ∈ (s.node ino).sized)) := rfl
    rw [hset, Bool.and_eq_true, Bool.not_eq_true', decide_eq_false_iff_not] at hd
    obtain ⟨m, k, hm, hk, rfl⟩ := h.owner d hd.1
    refine ⟨m, k, ?_, ?_, ?_⟩
    · rw [Live, hiset]
      split
      · -- it would have been released
        rename_i hmi
        subst m
        refine absurd (List.mem_map.2 ⟨k, List.mem_range.2 ?_, rfl⟩) hd.2
        have hdir : s.IsDir ino := by
          by_contra hf
          exact hk (h.file ino hm hf k)
        have hk₈ : k < 8 := by
          by_contra hge
          exact hk (Inode.blk_of_le _ (Nat.not_lt.1 hge))
        have hlt := ((hinv.dir ino hm hdir).dense k hk₈).1 hk
        omega
      · exact hm
    · rw [hblk]
      exact hk
    · rw [hblk]

/-- **Operations on directories give files no blocks.** -/
theorem step (h : s.Bare) (hinv : s.Inv) {op : Op} (hpre : s.Pre op)
    (hop : op.isNamespace = true) {r : Reply} (hs : s.step op = some (r, s')) : s'.Bare := by
  have hload : ∀ n, s.Live n → (s.load n).Bare := by
    intro n hn
    refine h.congr rfl rfl fun m _ => ?_
    rw [Namespace.load]
    dsimp only
    rw [Function.update_apply]
    split
    · subst m
      have hattrs := hinv.attrs_narrow hn
      exact ⟨mode_congr hattrs, blk_congr hattrs⟩
    · exact ⟨rfl, fun _ => rfl⟩
  have hcreate : ∀ p q mode, s.holds S_ISDIR p → s.create p q mode = some (r, s') → s'.Bare := by
    intro p q mode hp hs
    unfold Namespace.create at hs
    split at hs
    · obtain ⟨⟨j, s₁⟩, hg, hs⟩ := Option.bind_eq_some_iff.1 hs
      obtain ⟨n, hn, hs⟩ := Option.map_eq_some_iff.1 hs
      have hlive := hinv.core p hp.1
      have hgives := hinv.getFree hlive hp.2 hg
      have hbare := h.getFree hinv hlive hp.2 hg
      split at hs
      · cases hs
        refine hbare.link mode ?_ hgives.dir ?_
        · rw [Live, hgives.iset]
          exact hlive
        · rw [hgives.iset]
          exact (Mem.mem_clears.1 (List.mem_of_head? hn)).2
      · cases hs
        exact hbare
    · cases hs
      exact h
  have hremove : ∀ p q ino, s.bound p q = some ino → s.remove p q ino = some (r, s') →
      s'.Bare := by
    intro p q ino hb hs
    obtain ⟨j, -, hrm⟩ := remove_of_bound hb
    rw [hrm] at hs
    cases hs
    exact h.drop hinv p j ino
  cases op with
  | lookup p q =>
      obtain rfl : (s.lookup p q).2 = s' := congrArg Prod.snd (Option.some.inj hs)
      unfold Namespace.lookup
      split
      · cases hb : s.bound p q with
        | none => exact h.edit (f := fun i => { i with i_atime := s.now }) rfl fun _ => rfl
        | some n =>
            obtain ⟨-, j, -, he⟩ := bound_eq_some hb
            exact (hload n (hinv.tree.child_alive he)).edit
              (f := fun i => { i with i_atime := s.now }) rfl fun _ => rfl
      · exact h
  | create p q mode => exact hcreate p q _ hpre.1 hs
  | mkdir p q mode => exact hcreate p q _ hpre.1 hs
  | unlink p q ino => exact hremove p q ino hpre.2.1 hs
  | rmdir p q ino =>
      simp only [Namespace.step] at hs
      split at hs
      · cases hs
        exact h
      · exact hremove p q ino hpre.2.1 hs
  | writeInode n =>
      cases hs
      exact h.congr rfl rfl fun _ _ => ⟨rfl, fun _ => rfl⟩
  | evict n =>
      cases hs
      refine h.congr rfl rfl fun m hm => ?_
      dsimp only
      rw [Function.update_apply]
      split
      · subst m
        have hattrs := hinv.attrs_narrow hm
        exact ⟨mode_congr hattrs, blk_congr hattrs⟩
      · exact ⟨rfl, fun _ => rfl⟩
  | tick =>
      cases hs
      exact h.congr rfl rfl fun _ _ => ⟨rfl, fun _ => rfl⟩
  | write | setSize | openFile | closeFile | device => simp [Op.isNamespace] at hop

end Bare

end Namespace

/-! ### The bitmaps, the inodes and the slots -/

namespace World

/-- The live dentry at slot `j` of the directory `p`. -/
def DentryAt (w : World) (p j : ℕ) (e : DirEntry) : Prop :=
  w.Live p ∧ S_ISDIR (w.logical p).i_mode = true ∧ j < (w.logical p).i_size / YAF_DENTRY_SIZE ∧
    w.entry (w.logical p) j = some e

/-- A directory has a dentry of the inode `n`. -/
def Parent (w : World) (p n : ℕ) : Prop := ∃ j e, w.DentryAt p j e ∧ e.ino = n

/-- **The bitmaps, the inodes and the slots agree.** -/
structure Consistent (w : World) : Prop where
  /-- the marked inode numbers are the reserved one, the root's, and those of the dentries -/
  inodes : ∀ n, w.view.iset n = true ↔
    n = RESERVED_INO.toNat ∨ n = ROOT_INO ∨ ∃ p, w.Parent p n
  range : ∀ p n, w.Parent p n → n < w.sb.nr_i * INODES_PER_BLOCK
  /-- a number is that of one dentry only -/
  unique : ∀ p j e p' j' e', w.DentryAt p j e → w.DentryAt p' j' e' → e.ino = e'.ino →
    p = p' ∧ j = j'
  /-- the allocated inodes make a tree -/
  root : ∀ p, ¬w.Parent p ROOT_INO
  reach : ∀ n, w.Live n → Relation.ReflTransGen w.Parent ROOT_INO n
  /-- the marked blocks are those of the directories -/
  blocks : ∀ d, w.view.dset d = true ↔ ∃ n k, w.Live n ∧ S_ISDIR (w.logical n).i_mode = true ∧
    (w.logical n).blk k ≠ RESERVED_DNO ∧ ((w.logical n).blk k).toNat = d
  /-- and each has one owner -/
  owner : ∀ n m k l, w.Live n → w.Live m → (w.logical n).blk k ≠ RESERVED_DNO →
    (w.logical n).blk k = (w.logical m).blk l → n = m ∧ k = l

end World

namespace Models

/-- The live dentries are the occupied slots of the tree. -/
theorem dentryAt_iff (h : Models w s) {p j : ℕ} {e : DirEntry} :
    w.DentryAt p j e ↔ s.slot p j = some (e.name, e.ino) := by
  have hentry : s.Live p → s.IsDir p → j < s.count p →
      w.entry (s.node p) j = (s.slot p j).map entryOf := by
    intro hp hd hj
    exact (h.shows p j hp hd hj).slotEntry_eq fun x hx => (h.inv.name p j x hx).2.2
  constructor
  · rintro ⟨hlive, hd, hj, he⟩
    have hp := h.live_iff.1 hlive
    rw [h.logical hp] at hd hj he
    rw [hentry hp hd hj] at he
    obtain ⟨x, hx, rfl⟩ := Option.map_eq_some_iff.1 he
    exact hx
  · intro he
    have hp := h.inv.tree.source p j _ he
    obtain ⟨hd, hj⟩ := h.inv.isDir p j _ he
    refine ⟨h.live_iff.2 hp, ?_⟩
    rw [h.logical hp]
    refine ⟨hd, hj, ?_⟩
    rw [hentry hp hd hj, he]
    rfl

theorem parent_iff (h : Models w s) {p n : ℕ} : w.Parent p n ↔ Forest.Edge s.slot p n := by
  constructor
  · rintro ⟨j, e, he, rfl⟩
    exact ⟨j, e.name, h.dentryAt_iff.1 he⟩
  · rintro ⟨j, name, he⟩
    exact ⟨j, ⟨name, n⟩, h.dentryAt_iff.2 he, rfl⟩

/-- **What stands for a tree whose files have no blocks is consistent.** -/
theorem consistent (h : Models w s) (hb : s.Bare) : w.Consistent := by
  have htree := h.inv.tree
  have hroot := htree.root_alive
  refine ⟨fun n => ?_, fun p n hp => ?_, fun p j e p' j' e' he he' hino => ?_, fun p hp => ?_,
    fun n hn => ?_, fun d => ?_, fun n m k l hn hm hk he => ?_⟩
  · rw [h.iset]
    constructor
    · intro hset
      by_cases h₀ : n = 0
      · exact .inl h₀
      by_cases h₁ : n = ROOT_INO
      · exact .inr (.inl h₁)
      obtain ⟨p, j, name, he⟩ := htree.exists_parent ⟨hset, h₀⟩ h₁
      exact .inr (.inr ⟨p, h.parent_iff.2 ⟨j, name, he⟩⟩)
    · rintro (rfl | rfl | ⟨p, hp⟩)
      · exact h.inv.zero
      · exact hroot.1
      · obtain ⟨j, name, he⟩ := h.parent_iff.1 hp
        exact (htree.child_alive he).1
  · obtain ⟨j, name, he⟩ := h.parent_iff.1 hp
    rw [h.sb, INODES_PER_BLOCK_eq]
    exact h.inv.range n (htree.child_alive he)
  · rw [h.dentryAt_iff] at he he'
    rw [hino] at he
    exact htree.unique p j _ p' j' _ _ he he'
  · obtain ⟨j, name, he⟩ := h.parent_iff.1 hp
    exact htree.target p j name he
  · have hreach := (htree.reach n).1 (h.live_iff.1 hn)
    exact Relation.ReflTransGen.mono (fun _ _ he => h.parent_iff.2 he) _ _ hreach
  · rw [h.dset]
    constructor
    · intro hset
      obtain ⟨n, k, hn, hk, he⟩ := hb.owner d hset
      have hd : s.IsDir n := by
        by_contra hf
        exact hk (hb.file n hn hf k)
      refine ⟨n, k, h.live_iff.2 hn, ?_⟩
      rw [h.logical hn]
      exact ⟨hd, hk, he⟩
    · rintro ⟨n, k, hn, -, hk, rfl⟩
      have hlive := h.live_iff.1 hn
      rw [h.logical hlive] at hk ⊢
      exact (h.inv.owned n k hlive hk).1
  · have hn' := h.live_iff.1 hn
    have hm' := h.live_iff.1 hm
    rw [h.logical hn'] at hk he
    rw [h.logical hm'] at he
    exact h.inv.sole n m k l hn' hm' hk he

end Models

/-! ### Runs -/

/-- The tree of a fresh volume has no blocks. -/
theorem Volume.tree_bare (v : Volume) : v.tree.Bare := by
  constructor
  · intro n _ _ k
    have hnode : v.tree.node n = (Mkfs.rootInode v.uid v.gid).toMem := rfl
    rw [hnode, Inode.blk]
    split <;> rfl
  · intro d hd
    exact absurd hd Bool.false_ne_true

/-- **Every state of a run of operations on directories is consistent.** -/
theorem consistent_of_run {v : Volume} (h : v.Ok) {l : List (Op × Reply)}
    (hrun : Run step (fun w op => op.Tame w) (fresh v) l w) : w.Consistent := by
  rw [Volume.fresh_eq h] at hrun
  have hmodels : ∃ s, Models w s ∧ s.Bare := by
    refine hrun.invariant (I := fun w => ∃ s, Models w s ∧ s.Bare)
      ⟨v.tree, Volume.models h, v.tree_bare⟩ ?_
    rintro w op r w' ⟨s, hs, hb⟩ hop hr
    obtain ⟨s', hstep, hs'⟩ := (hs.step hop).ok hr
    have htame := hs.tame_iff.1 hop
    exact ⟨s', hs', hb.step hs.inv htame.1 htame.2.1 hstep⟩
  obtain ⟨s, hs, hb⟩ := hmodels
  exact hs.consistent hb

/-- A directory in a directory, and a file in it; one of two files of the root was removed. -/
theorem consistent_small : ∃ l w, Run step (fun w op => op.Tame w) (fresh .small) l w ∧
    l.map Prod.snd = [(0, some 2), (0, some 3), (0, some 4), (0, some 5), (0, none)] ∧
      w.Consistent := by
  obtain ⟨l, w, hrun, hp⟩ := Volume.exists_run Volume.small_ok (fun w op => op.Tame w)
    [.mkdir 1 (.letters 0) 0, .mkdir 2 (.letters 0) 0, .create 3 (.letters 1) 0,
      .create 1 (.letters 1) 0, .unlink 1 (.letters 1) 5]
    (fun l _ => l.map Prod.snd ==
      [(0, some 2), (0, some 3), (0, some 4), (0, some 5), (0, none)]) (by decide +kernel)
  exact ⟨l, w, hrun, by simpa using hp, consistent_of_run Volume.small_ok hrun⟩

end Yaf
