/-
**What the volume is for: a tree of directories.**

The driver keeps directories in blocks of slots, inodes in a table, and two bitmaps.  What all this
stands for is a tree: every directory has slots, an occupied slot has a name and leads to a
directory or a file, and a few numbers count what is there.  This module says what the operations
do to that tree, without blocks and bytes, and which invariant they keep.

A `Yaf.Namespace` is such a tree, with what the operations read besides: which numbers are in use,
the inodes, and which of them are in memory.  `Yaf.Namespace.step` is the step function; where the
driver stops with a fault it has no value.

Main definitions:

* `Yaf.Namespace`, `Yaf.Namespace.step` — the states, and the operations;
* `Yaf.Namespace.Inv` — **the invariant**: the slots make a tree, the link counts are exact, the
  directories are dense, and every block has one owner.

Main results:

* `Yaf.Namespace.Inv.write_cases` — what a write does to the tree;
* `Yaf.Namespace.Inv.step` — **the operations keep the invariant**.
-/

import Yaf.Lib.Forest
import Yaf.Vfs

set_option relaxedAutoImplicit false
set_option autoImplicit false

namespace Yaf

/-! ### States -/

/-- **A tree of directories**, and what is kept about it. -/
structure Namespace where
  sb : Yaf_Sb_Info
  nblk : ℕ
  /-- inode numbers in use -/
  iset : ℕ → Bool
  /-- data blocks in use -/
  dset : ℕ → Bool
  node : ℕ → Inode
  /-- the inodes in memory, and whether they are dirty -/
  core : ℕ → Option Bool
  /-- the slots of the directories: a name, and an inode number -/
  slot : Forest.Slots ℕ (List UInt8)
  /-- the bytes of the files, as far as they are known -/
  bytes : ℕ → ℕ → Option UInt8
  opens : ℕ → ℕ
  now : ℤ
  fsuid : UInt32
  fsgid : UInt32

/-- An inode that was written back and read again. -/
def Inode.narrow (i : Inode) : Inode := i.toDisk.toMem

namespace Namespace

/-- An inode number that is allocated. -/
def Live (s : Namespace) (n : ℕ) : Prop := s.iset n = true ∧ n ≠ 0

def IsDir (s : Namespace) (n : ℕ) : Prop := S_ISDIR (s.node n).i_mode = true

instance (s : Namespace) (n : ℕ) : Decidable (s.IsDir n) := inferInstanceAs (Decidable (_ = true))

/-- The number of slots of a directory. -/
def count (s : Namespace) (p : ℕ) : ℕ := (s.node p).i_size / 32

/-- Changing an inode in memory. -/
def edit (s : Namespace) (n : ℕ) (f : Inode → Inode) : Namespace :=
  { s with
    node := Function.update s.node n (f (s.node n))
    core := Function.update s.core n (some true) }

theorem edit_edit (s : Namespace) (n : ℕ) (f g : Inode → Inode) :
    (s.edit n f).edit n g = s.edit n fun i => g (f i) := by
  simp only [edit, Function.update_self, Function.update_idem]

/-- Only the inode that is changed matters. -/
theorem edit_congr (s : Namespace) {n : ℕ} {f g : Inode → Inode}
    (h : f (s.node n) = g (s.node n)) : s.edit n f = s.edit n g := by
  rw [edit, edit, h]

/-- Changing a slot. -/
def put (s : Namespace) (p j : ℕ) (e : Option (List UInt8 × ℕ)) : Namespace :=
  { s with slot := Forest.put s.slot p j e }

/-! ### Searching a directory -/

/-- The first free slot. -/
def freeSlot (s : Namespace) (p : ℕ) : Option ℕ :=
  (List.range (s.count p)).find? fun j => (s.slot p j).isNone

/-- The first slot with the given name. -/
def named (s : Namespace) (p : ℕ) (q : Qstr) : Option ℕ :=
  (List.range (s.count p)).find? fun j => (s.slot p j).any fun e => e.1 == q.name

/-- The inode number a name is bound to. -/
def bound (s : Namespace) (p : ℕ) (q : Qstr) : Option ℕ :=
  if q.len ≤ 24 then (s.named p q).bind fun j => (s.slot p j).map Prod.snd else none

/-! ### Operations -/

/-- One slot more. -/
def extend (s : Namespace) (p : ℕ) : Namespace :=
  s.edit p fun i => ({ i with i_size := i.i_size + 32 } : Inode).setTimes s.now

/-- One block more, and a slot in it. -/
def attach (s : Namespace) (p d : ℕ) : Namespace :=
  ({ s with dset := Function.update s.dset d true } : Namespace).edit p fun i =>
    ({ i.setBlk (i.i_size / 4096) (UInt32.ofNat d) with i_size := i.i_size + 32 } : Inode).setTimes
      s.now

/-- A free slot: one that is there, or a new one at the end.  A directory of 1024 slots has no room
for another, and a block must be on the device. -/
def getFree (s : Namespace) (p : ℕ) : Option (ℕ × Namespace) :=
  match s.freeSlot p with
  | some j => some (j, s)
  | none =>
      if s.count p = 1024 then none
      else if s.count p % 128 = 0 then
        match (Mem.clears s.dset 32768).head? with
        | some d => if DNO2BID s.sb d < s.nblk then some (s.count p, s.attach p d) else none
        | none => none
      else some (s.count p, s.extend p)

/-- Whether a free slot needs a block, and the one that is found is not on the device. -/
def stranded (s : Namespace) (p : ℕ) : Bool :=
  (s.freeSlot p).isNone && decide (s.count p ≠ 1024) && decide (s.count p % 128 = 0) &&
    !(Mem.clears s.dset 32768).head?.any fun d => decide (DNO2BID s.sb d < s.nblk)

/-- A new inode. -/
def newInode (s : Namespace) (dir : Inode) (mode : UInt16) : Inode :=
  { inode_init_owner s.fsuid s.fsgid dir mode Inode.blank with
    i_nlink := 1, i_size := 0, i_atime := s.now, i_mtime := s.now, i_ctime := s.now
    i_block := fun _ => RESERVED_DNO }

/-- A new inode `n`, and a slot that leads to it. -/
def link (s : Namespace) (p j : ℕ) (q : Qstr) (n : ℕ) (mode : UInt16) : Namespace :=
  (({ s with
      iset := Function.update s.iset n true
      node := Function.update s.node n (s.newInode (s.node p) mode)
      core := Function.update s.core n (some true) } : Namespace).put p j
    (some (q.name, n))).edit p fun i => { i.setTimes s.now with i_nlink := i.i_nlink + 1 }

/-- A creation.  There is no value when no inode number is left in the first block of the
bitmap. -/
def create (s : Namespace) (p : ℕ) (q : Qstr) (mode : UInt16) : Option (Reply × Namespace) :=
  if q.len ≤ 24 then
    (s.getFree p).bind fun r =>
      (Mem.clears s.iset 32768).head?.map fun n =>
        if n < s.sb.nr_i * 64 then ((0, some n), r.2.link p r.1 q n mode)
        else ((-EINVAL, none), r.2)
  else some ((-ENAMETOOLONG, none), s)

/-- The slot `j` emptied, and the inode it led to released with its blocks. -/
def drop (s : Namespace) (p j ino : ℕ) : Namespace :=
  let s₁ := (s.put p j none).edit p fun i => { i.setTimes s.now with i_nlink := i.i_nlink - 1 }
  { s₁ with
    iset := Function.update s₁.iset ino false
    dset := fun d => s₁.dset d && !decide (d ∈ (s.node ino).sized)
    core := Function.update s₁.core ino none
    bytes := Function.update s₁.bytes ino fun _ => none }

def remove (s : Namespace) (p : ℕ) (q : Qstr) (ino : ℕ) : Option (Reply × Namespace) :=
  if q.len ≤ 24 then (s.named p q).map fun j => ((0, none), s.drop p j ino) else none

/-- An inode read in. -/
def load (s : Namespace) (n : ℕ) : Namespace :=
  { s with
    node := Function.update s.node n (s.node n).narrow
    core := Function.update s.core n (some ((s.core n).getD false)) }

/-- A lookup.  A name that is bound to nothing is no failure. -/
def lookup (s : Namespace) (p : ℕ) (q : Qstr) : Reply × Namespace :=
  if q.len ≤ 24 then
    ((0, none), (match s.bound p q with
      | some n => s.load n
      | none => s).edit p fun i => { i with i_atime := s.now })
  else ((-ENAMETOOLONG, none), s)

/-- The block `d` for entry `k` of a block map. -/
def grant (s : Namespace) (n k d : ℕ) : Namespace :=
  ({ s with dset := Function.update s.dset d true } : Namespace).edit n fun i =>
    i.setBlk k (UInt32.ofNat d)

/-- Blocks for `m` entries of a block map, from entry `k` on: each is the first that is free. -/
def assign (s : Namespace) (n : ℕ) : ℕ → ℕ → Option Namespace
  | 0, _ => some s
  | m + 1, k => (Mem.clears s.dset 32768).head?.bind fun d => (s.grant n k d).assign n m (k + 1)

/-- Blocks for the entries up to `k`, as far as they have none. -/
def mapTo (s : Namespace) (n k : ℕ) : Option Namespace :=
  let dbnr := countAssigned (s.node n) YAF_IBLOCKS 0
  s.assign n (k + 1 - dbnr) dbnr

/-- Bytes stored in a file. -/
def store (s : Namespace) (n pos : ℕ) (data : List UInt8) (copied : ℕ) : Namespace :=
  let s₁ := if pos + copied > (s.node n).i_size then
      s.edit n fun i => { i with i_size := pos + copied }
    else s
  let s₂ : Namespace := { s₁ with bytes := Function.update s.bytes n fun off =>
    if pos ≤ off ∧ off < pos + copied then some (data.getD (off - pos) 0) else s.bytes n off }
  if copied < data.length then s₂
  else s₂.edit n fun i => { i with i_ctime := s.now, i_mtime := s.now }

/-- A piece of a write.  There is no value when a block that is needed is not found.  A block that
is not on the device is kept, and the write fails. -/
def write (s : Namespace) (n pos : ℕ) (data : List UInt8) (copied : ℕ) :
    Option (Reply × Namespace) :=
  if pos + data.length > 32768 then some ((-ENOSPC, none), s)
  else (s.mapTo n (pos / 4096)).map fun s₁ =>
    if DNO2BID s.sb ((s₁.node n).blk (pos / 4096)).toNat < s.nblk then
      ((copied, none), s₁.store n pos data copied)
    else ((- EIO, none), s₁)

/-- **What an operation does to the tree.** -/
def step (s : Namespace) : Op → Option (Reply × Namespace)
  | .lookup p q => some (s.lookup p q)
  | .create p q mode => s.create p q (mode ||| S_IFREG)
  | .mkdir p q mode => s.create p q (mode ||| S_IFDIR)
  | .unlink p q ino => s.remove p q ino
  | .rmdir p q ino =>
      if (s.node ino).i_nlink > 1 then some ((-ENOTEMPTY, none), s) else s.remove p q ino
  | .openFile n =>
      some ((0, none), { s with opens := Function.update s.opens n (s.opens n + 1) })
  | .closeFile n =>
      some ((0, none), { s with opens := Function.update s.opens n (s.opens n - 1) })
  | .writeInode n => some ((0, none), { s with core := Function.update s.core n (some false) })
  | .evict n => some ((0, none), { s with
      node := Function.update s.node n (s.node n).narrow
      core := Function.update s.core n none })
  | .tick now fsuid fsgid => some ((0, none), { s with now := now, fsuid := fsuid, fsgid := fsgid })
  | .write n pos data copied => s.write n pos data copied
  | .setSize .. | .device .. => none

/-- The inode is in memory, and of the kind asked for. -/
def holds (s : Namespace) (kind : UInt16 → Bool) (n : ℕ) : Prop :=
  s.core n ≠ none ∧ kind (s.node n).i_mode = true

/-- A regular file is no directory. -/
theorem holds.not_isDir {s : Namespace} {n : ℕ} (h : s.holds S_ISREG n) : ¬s.IsDir n := by
  intro hd
  exact absurd (hd.symm.trans (S_ISDIR_of_S_ISREG h.2)) (by decide)

/-- When the VFS makes the call. -/
def Pre (s : Namespace) : Op → Prop
  | .lookup p _ => s.holds S_ISDIR p
  | .create p q mode | .mkdir p q mode =>
      s.holds S_ISDIR p ∧ s.bound p q = none ∧ mode &&& S_IFMT = 0
  | .unlink p q ino =>
      s.holds S_ISDIR p ∧ s.bound p q = some ino ∧ s.holds (fun m => !S_ISDIR m) ino ∧
        s.opens ino = 0
  | .rmdir p q ino => s.holds S_ISDIR p ∧ s.bound p q = some ino ∧ s.holds S_ISDIR ino
  | .write n pos data copied => s.holds S_ISREG n ∧ 0 < data.length ∧
      pos % 4096 + data.length ≤ 4096 ∧ copied ≤ data.length
  | .openFile n => s.holds S_ISREG n
  | .closeFile n => 0 < s.opens n
  | .writeInode n => s.core n ≠ none
  | .evict n => s.core n = some false ∧ n ≠ ROOT_INO ∧ s.opens n = 0
  | _ => True

/-! ### The invariant -/

end Namespace

/-- **The shape of a directory**: whole slots, and blocks for exactly these. -/
structure Inode.DirShape (i : Inode) : Prop where
  slots : i.i_size % 32 = 0
  le : i.i_size ≤ 32768
  dense : ∀ k < 8, i.blk k ≠ RESERVED_DNO ↔ k * 4096 < i.i_size

/-- **The shape of a file**: no hole in the block map, and blocks for all bytes. -/
structure Inode.FileShape (i : Inode) : Prop where
  le : i.i_size ≤ 32768
  covered : ∀ k < 8, k * 4096 < i.i_size → i.blk k ≠ RESERVED_DNO
  dense : ∀ j k, j ≤ k → i.blk j = RESERVED_DNO → i.blk k = RESERVED_DNO

/-- The entries from the first free one on are free. -/
theorem Inode.FileShape.blk_free {i : Inode} (h : i.FileShape) {j : ℕ}
    (hj : countAssigned i YAF_IBLOCKS 0 ≤ j) : i.blk j = RESERVED_DNO := by
  obtain ⟨-, -, hres⟩ := countAssigned_spec i
  rcases Nat.lt_or_ge (countAssigned i YAF_IBLOCKS 0) 8 with hlt | hge
  · exact h.dense _ j hj (hres hlt)
  · exact Inode.blk_of_le _ (by omega)

/-- The blocks below the size are assigned. -/
theorem Inode.FileShape.lt_countAssigned {i : Inode} (h : i.FileShape) {off : ℕ}
    (hoff : off < i.i_size) : off / 4096 < countAssigned i YAF_IBLOCKS 0 := by
  have hsize := h.le
  by_contra hno
  exact h.covered (off / 4096) (by omega) (by omega) (h.blk_free (Nat.le_of_not_lt hno))

namespace Namespace

/-- **The invariant.** -/
structure Inv (s : Namespace) : Prop where
  layout : s.sb.Ok s.nblk
  zero : s.iset 0 = true
  range : ∀ n, s.Live n → n < s.sb.nr_i * 64
  core : ∀ n, s.core n ≠ none → s.Live n
  opened : ∀ n, s.opens n ≠ 0 → s.Live n ∧ ¬s.IsDir n
  root : s.IsDir ROOT_INO
  /-- the slots make a tree of the allocated inodes -/
  tree : Forest.Tree s.slot ROOT_INO s.Live
  isDir : ∀ p j e, s.slot p j = some e → s.IsDir p ∧ j < s.count p
  name : ∀ p j e, s.slot p j = some e → e.1 ≠ [] ∧ (0 : UInt8) ∉ e.1 ∧ e.1.length ≤ 24
  dir : ∀ n, s.Live n → s.IsDir n → (s.node n).DirShape
  file : ∀ n, s.Live n → ¬s.IsDir n → (s.node n).FileShape
  /-- a directory has a link for each of its entries, and one more -/
  links : ∀ n, s.Live n → s.IsDir n →
    (s.node n).i_nlink.toNat = 1 + Forest.degree s.slot n (s.count n)
  link : ∀ n, s.Live n → ¬s.IsDir n → (s.node n).i_nlink = 1
  /-- a block of an inode is marked, and that of a directory on the device -/
  owned : ∀ n k, s.Live n → (s.node n).blk k ≠ RESERVED_DNO →
    s.dset ((s.node n).blk k).toNat = true ∧
      (s.IsDir n → DNO2BID s.sb ((s.node n).blk k).toNat < s.nblk)
  /-- and has one owner -/
  sole : ∀ n m k l, s.Live n → s.Live m → (s.node n).blk k ≠ RESERVED_DNO →
    (s.node n).blk k = (s.node m).blk l → n = m ∧ k = l
  /-- a byte that is known is one of a file, in a block on the device -/
  known : ∀ n off b, s.bytes n off = some b → s.Live n ∧ ¬s.IsDir n ∧
    off < (s.node n).i_size ∧ DNO2BID s.sb ((s.node n).blk (off / 4096)).toNat < s.nblk

/-! ### What the operations keep -/

section Attrs

variable {i i' : Inode}

theorem blk_congr (h : i'.attrs = i.attrs) (k : ℕ) : i'.blk k = i.blk k :=
  congrArg (fun a => Attrs.blk a k) h

theorem size_congr (h : i'.attrs = i.attrs) : i'.i_size = i.i_size := congrArg Attrs.i_size h

theorem mode_congr (h : i'.attrs = i.attrs) : i'.i_mode = i.i_mode := congrArg Attrs.i_mode h

theorem nlink_congr (h : i'.attrs = i.attrs) : i'.i_nlink = i.i_nlink := congrArg Attrs.i_nlink h

theorem dirShape_congr (hs : i'.i_size = i.i_size) (hb : ∀ k, i'.blk k = i.blk k)
    (hi : i.DirShape) : i'.DirShape := by
  refine ⟨?_, ?_, fun k hk => ?_⟩
  · rw [hs]
    exact hi.slots
  · rw [hs]
    exact hi.le
  · rw [hs, hb]
    exact hi.dense k hk

theorem fileShape_congr (h : i'.attrs = i.attrs) (hi : i.FileShape) : i'.FileShape := by
  refine ⟨?_, fun k hk => ?_, fun j k => ?_⟩
  · rw [size_congr h]
    exact hi.le
  · rw [size_congr h, blk_congr h]
    exact hi.covered k hk
  · rw [blk_congr h, blk_congr h]
    exact hi.dense j k

end Attrs

variable {s s' : Namespace}

namespace Inv

/-- **The times do not matter**, nor what is in memory as long as it is allocated. -/
theorem congr (h : s.Inv) (hsb : s'.sb = s.sb) (hnblk : s'.nblk = s.nblk)
    (hiset : s'.iset = s.iset) (hdset : s'.dset = s.dset) (hslot : s'.slot = s.slot)
    (hbytes : s'.bytes = s.bytes)
    (hnode : ∀ n, s.Live n → (s'.node n).attrs = (s.node n).attrs)
    (hcore : ∀ n, s'.core n ≠ none → s.Live n)
    (hopen : ∀ n, s'.opens n ≠ 0 → s.Live n ∧ ¬s.IsDir n) : s'.Inv := by
  have hlive : ∀ n, s'.Live n ↔ s.Live n := fun n => by rw [Live, Live, hiset]
  have hdir : ∀ n, s.Live n → (s'.IsDir n ↔ s.IsDir n) := fun n hn => by
    rw [IsDir, IsDir, mode_congr (hnode n hn)]
  have hcount : ∀ n, s.Live n → s'.count n = s.count n := fun n hn => by
    rw [count, count, size_congr (hnode n hn)]
  have hroot := h.tree.root_alive
  refine ⟨?_, ?_, fun n hn => ?_, fun n hn => ?_, fun n hn => ?_, ?_, ?_, fun p j e he => ?_,
    fun p j e he => ?_, fun n hn hd => ?_, fun n hn hd => ?_, fun n hn hd => ?_,
    fun n hn hd => ?_, fun n k hn hk => ?_, fun n m k l hn hm hk he => ?_, fun n off b hb => ?_⟩
  · rw [hsb, hnblk]
    exact h.layout
  · rw [hiset]
    exact h.zero
  · rw [hsb]
    exact h.range n ((hlive n).1 hn)
  · exact (hlive n).2 (hcore n hn)
  · obtain ⟨hn, hd⟩ := hopen n hn
    exact ⟨(hlive n).2 hn, fun h => hd ((hdir n hn).1 h)⟩
  · exact (hdir _ hroot).2 h.root
  · rw [hslot]
    exact h.tree.congr hlive
  · rw [hslot] at he
    have hp := h.tree.source p j e he
    rw [hdir p hp, hcount p hp]
    exact h.isDir p j e he
  · rw [hslot] at he
    exact h.name p j e he
  · rw [hlive] at hn
    exact dirShape_congr (size_congr (hnode n hn)) (blk_congr (hnode n hn))
      (h.dir n hn ((hdir n hn).1 hd))
  · rw [hlive] at hn
    exact fileShape_congr (hnode n hn) (h.file n hn fun hd' => hd ((hdir n hn).2 hd'))
  · rw [hlive] at hn
    rw [nlink_congr (hnode n hn), hcount n hn, hslot]
    exact h.links n hn ((hdir n hn).1 hd)
  · rw [hlive] at hn
    rw [nlink_congr (hnode n hn)]
    exact h.link n hn fun hd' => hd ((hdir n hn).2 hd')
  · rw [hlive] at hn
    rw [blk_congr (hnode n hn)] at hk ⊢
    rw [hdset, hsb, hnblk, hdir n hn]
    exact h.owned n k hn hk
  · rw [hlive] at hn hm
    rw [blk_congr (hnode n hn)] at hk he
    rw [blk_congr (hnode m hm)] at he
    exact h.sole n m k l hn hm hk he
  · rw [hbytes] at hb
    have hn := (h.known n off b hb).1
    rw [hlive, hdir n hn, size_congr (hnode n hn), blk_congr (hnode n hn), hsb, hnblk]
    exact h.known n off b hb

/-- The size of an allocated inode fits the on-disk field. -/
theorem size_lt (h : s.Inv) {n : ℕ} (hn : s.Live n) : (s.node n).i_size < 2 ^ 32 := by
  by_cases hd : s.IsDir n
  · exact Nat.lt_of_le_of_lt (h.dir n hn hd).le (by decide)
  · exact Nat.lt_of_le_of_lt (h.file n hn hd).le (by decide)

theorem attrs_narrow (h : s.Inv) {n : ℕ} (hn : s.Live n) :
    (s.node n).narrow.attrs = (s.node n).attrs :=
  (Inode.agree_toDisk (h.size_lt hn)).attrs

/-- New times for an inode. -/
theorem edit (h : s.Inv) {n : ℕ} (hn : s.Live n) {f : Inode → Inode}
    (hf : (f (s.node n)).attrs = (s.node n).attrs) : (s.edit n f).Inv := by
  refine h.congr rfl rfl rfl rfl rfl rfl (fun m _ => ?_) (fun m hm => ?_) h.opened
  · simp only [Namespace.edit, Function.update_apply]
    split
    · subst m
      exact hf
    · rfl
  · simp only [Namespace.edit, Function.update_apply] at hm
    split at hm
    · subst m
      exact hn
    · exact h.core m hm

/-- A free slot is one that no directory has. -/
theorem slot_of_le (h : s.Inv) {p j : ℕ} (hj : s.count p ≤ j) : s.slot p j = none := by
  cases he : s.slot p j with
  | none => rfl
  | some e => exact absurd (h.isDir p j e he).2 (Nat.not_lt.2 hj)

theorem slot_of_file (h : s.Inv) {n : ℕ} (hn : ¬s.IsDir n) (j : ℕ) : s.slot n j = none := by
  cases he : s.slot n j with
  | none => rfl
  | some e => exact absurd (h.isDir n j e he).1 hn

/-- **One inode changes**: it does not get smaller, and has at most one block more. -/
theorem alter (h : s.Inv) {p : ℕ} (hp : s.Live p) {i : Inode} {dset : ℕ → Bool}
    (hmode : i.i_mode = (s.node p).i_mode) (hlink : i.i_nlink = (s.node p).i_nlink)
    (hsize : (s.node p).i_size ≤ i.i_size) (hdshape : s.IsDir p → i.DirShape)
    (hfshape : ¬s.IsDir p → i.FileShape) (hdset : ∀ d, s.dset d = true → dset d = true) (k₀ : ℕ)
    (hblk : ∀ k ≠ k₀, i.blk k = (s.node p).blk k)
    (hnew : i.blk k₀ = (s.node p).blk k₀ ∨
      (s.node p).blk k₀ = RESERVED_DNO ∧ s.dset (i.blk k₀).toNat = false ∧
        dset (i.blk k₀).toNat = true ∧
        (s.IsDir p → DNO2BID s.sb (i.blk k₀).toNat < s.nblk)) :
    ({ s with
        dset := dset
        node := Function.update s.node p i
        core := Function.update s.core p (some true) } : Namespace).Inv := by
  set s' : Namespace := { s with
    dset := dset
    node := Function.update s.node p i
    core := Function.update s.core p (some true) } with hs'
  have hnode : ∀ n, s'.node n = if n = p then i else s.node n := fun n =>
    Function.update_apply _ _ _ _
  have hdir : ∀ n, s'.IsDir n ↔ s.IsDir n := fun n => by
    rw [IsDir, IsDir, hnode]
    split
    · rw [‹n = p›, hmode]
    · rfl
  have hnlink : ∀ n, (s'.node n).i_nlink = (s.node n).i_nlink := fun n => by
    rw [hnode]
    split
    · rw [‹n = p›, hlink]
    · rfl
  have hsz : ∀ n, (s.node n).i_size ≤ (s'.node n).i_size := fun n => by
    rw [hnode]
    split
    · rw [‹n = p›]
      exact hsize
    · exact le_rfl
  have hcount : ∀ n, s.count n ≤ s'.count n := fun n => Nat.div_le_div_right (hsz n)
  -- an entry is the new one, or was there before
  have hentry : ∀ n k, (s'.node n).blk k = (s.node n).blk k ∨ n = p ∧ k = k₀ ∧
      (s.node n).blk k = RESERVED_DNO ∧ s.dset ((s'.node n).blk k).toNat = false ∧
        dset ((s'.node n).blk k).toNat = true ∧
        (s.IsDir n → DNO2BID s.sb ((s'.node n).blk k).toNat < s.nblk) := by
    intro n k
    rw [hnode]
    split
    · subst n
      by_cases hk : k = k₀
      · subst k
        exact hnew.imp_right fun hf => ⟨rfl, rfl, hf⟩
      · exact .inl (hblk k hk)
    · exact .inl rfl
  refine ⟨h.layout, h.zero, h.range, fun n hn => ?_, fun n hn => ?_, (hdir _).2 h.root, h.tree,
    fun q j e he => ?_, h.name, fun n hn hd' => ?_, fun n hn hd' => ?_, fun n hn hd' => ?_,
    fun n hn hd' => ?_, fun n k hn hk => ?_, fun n m k l hn hm hk he => ?_, fun n off b hb => ?_⟩
  · simp only [hs', Function.update_apply] at hn
    split at hn
    · subst n
      exact hp
    · exact h.core n hn
  · obtain ⟨hn, hd'⟩ := h.opened n hn
    exact ⟨hn, fun hd => hd' ((hdir n).1 hd)⟩
  · obtain ⟨hq, hj⟩ := h.isDir q j e he
    exact ⟨(hdir q).2 hq, Nat.lt_of_lt_of_le hj (hcount q)⟩
  · rw [hnode]
    split
    · subst n
      exact hdshape ((hdir p).1 hd')
    · exact h.dir n hn ((hdir n).1 hd')
  · rw [hnode]
    split
    · subst n
      exact hfshape fun hd => hd' ((hdir p).2 hd)
    · exact h.file n hn fun hd => hd' ((hdir n).2 hd)
  · rw [hnlink, h.links n hn ((hdir n).1 hd')]
    have hdeg := Forest.degree_of_le (hcount n) fun j hj => h.slot_of_le hj
    exact congrArg (1 + ·) hdeg.symm
  · rw [hnlink]
    exact h.link n hn fun hd => hd' ((hdir n).2 hd)
  · rw [hdir]
    rcases hentry n k with hold | ⟨-, -, -, -, hset, hdev⟩
    · rw [hold] at hk ⊢
      obtain ⟨hset, hdev⟩ := h.owned n k hn hk
      exact ⟨hdset _ hset, hdev⟩
    · exact ⟨hset, hdev⟩
  · rcases hentry n k with hold | ⟨rfl, rfl, -, hfree, -⟩
    · rcases hentry m l with hold' | ⟨-, -, -, hfree, -⟩
      · rw [hold] at hk he
        rw [hold'] at he
        exact h.sole n m k l hn hm hk he
      · rw [hold] at hk
        have := (h.owned n k hn hk).1
        rw [← hold, he, hfree] at this
        simp at this
    · rcases hentry m l with hold' | ⟨rfl, rfl, -⟩
      · have hl : (s.node m).blk l ≠ RESERVED_DNO := by rwa [← hold', ← he]
        have := (h.owned m l hm hl).1
        rw [← hold', ← he, hfree] at this
        simp at this
      · exact ⟨rfl, rfl⟩
  · obtain ⟨hn, hd', hlt, hdev⟩ := h.known n off b hb
    refine ⟨hn, fun hd => hd' ((hdir n).1 hd), Nat.lt_of_lt_of_le hlt (hsz n), ?_⟩
    rcases hentry n (off / 4096) with hold | ⟨-, -, hres, -⟩
    · rw [hold]
      exact hdev
    · -- the block of a known byte was there before
      have hle := (h.file n hn hd').le
      exact absurd hres ((h.file n hn hd').covered _ (by omega) (by omega))

/-- **A new inode in a free slot.** -/
theorem linked (h : s.Inv) {p j n : ℕ} {q : Qstr} (mode : UInt16) (hp : s.Live p)
    (hd : s.IsDir p) (hj : j < s.count p) (hfree : s.slot p j = none)
    (hname : ∀ j' c, s.slot p j' ≠ some (q.name, c)) (hlen : q.len ≤ 24)
    (hn : s.iset n = false) (hlt : n < s.sb.nr_i * 64) : (s.link p j q n mode).Inv := by
  have hnlive : ¬s.Live n := by
    rintro ⟨hset, -⟩
    rw [hn] at hset
    simp at hset
  have hn₀ : n ≠ 0 := by
    rintro rfl
    rw [h.zero] at hn
    simp at hn
  have hnp : n ≠ p := by
    rintro rfl
    exact hnlive hp
  set i := s.newInode (s.node p) mode with hi
  set d : Inode := { (s.node p).setTimes s.now with i_nlink := (s.node p).i_nlink + 1 } with hdi
  have hnode : ∀ m, (s.link p j q n mode).node m =
      if m = p then d else if m = n then i else s.node m := by
    intro m
    rw [hdi, hi]
    simp only [Namespace.link, Namespace.edit, Namespace.put, Function.update_apply,
      if_neg hnp.symm]
  have hcore : ∀ m, (s.link p j q n mode).core m =
      if m = p then some true else if m = n then some true else s.core m := by
    intro m
    simp only [Namespace.link, Namespace.edit, Namespace.put, Function.update_apply]
  have hslot : (s.link p j q n mode).slot = Forest.put s.slot p j (some (q.name, n)) := rfl
  have hlive : ∀ m, (s.link p j q n mode).Live m ↔ s.Live m ∨ m = n := by
    intro m
    have hset : (s.link p j q n mode).iset m = if m = n then true else s.iset m :=
      Function.update_apply _ _ _ _
    rw [Live, Live, hset]
    by_cases hm : m = n
    · subst m
      simp [hn₀]
    · simp [hm]
  have hires : ∀ k, i.blk k = RESERVED_DNO := fun k => by
    simp only [hi, newInode, Inode.blk, dite_eq_ite, ite_self]
  have hisize : i.i_size = 0 := rfl
  have hilink : i.i_nlink = 1 := rfl
  have hdattrs : d.i_mode = (s.node p).i_mode ∧ d.i_size = (s.node p).i_size ∧
      ∀ k, d.blk k = (s.node p).blk k := ⟨rfl, rfl, fun _ => rfl⟩
  have hdir : ∀ m, m ≠ n → ((s.link p j q n mode).IsDir m ↔ s.IsDir m) := by
    intro m hm
    rw [IsDir, IsDir, hnode, if_neg hm]
    split
    · rw [‹m = p›, hdattrs.1]
    · rfl
  have hcount : ∀ m, m ≠ n → (s.link p j q n mode).count m = s.count m := by
    intro m hm
    rw [count, count, hnode, if_neg hm]
    split
    · rw [‹m = p›, hdattrs.2.1]
    · rfl
  have hcountn : (s.link p j q n mode).count n = 0 := by
    rw [count, hnode, if_neg hnp, if_pos rfl, hisize]
  have hblk : ∀ m k, m ≠ n → ((s.link p j q n mode).node m).blk k = (s.node m).blk k := by
    intro m k hm
    rw [hnode, if_neg hm]
    split
    · rw [‹m = p›, hdattrs.2.2]
    · rfl
  have hblkn : ∀ k, ((s.link p j q n mode).node n).blk k = RESERVED_DNO := fun k => by
    rw [hnode, if_neg hnp, if_pos rfl, hires]
  have hliveOf : ∀ m, (s.link p j q n mode).Live m → m ≠ n → s.Live m := fun m hm hne =>
    ((hlive m).1 hm).resolve_right hne
  refine ⟨h.layout, ?_, fun m hm => ?_, fun m hm => ?_, fun m hm => ?_, ?_, ?_,
    fun a b e he => ?_, fun a b e he => ?_, fun m hm hd' => ?_, fun m hm hd' => ?_,
    fun m hm hd' => ?_, fun m hm hd' => ?_, fun m k hm hk => ?_, fun m m' k l hm hm' hk he => ?_,
    fun m off b hb => ?_⟩
  · exact (Function.update_of_ne hn₀.symm _ _).trans h.zero
  · rcases (hlive m).1 hm with hm | rfl
    · exact h.range m hm
    · exact hlt
  · rw [hlive]
    rw [hcore] at hm
    split at hm
    · exact .inl (‹m = p› ▸ hp)
    split at hm
    · exact .inr ‹_›
    · exact .inl (h.core m hm)
  · obtain ⟨hml, hd'⟩ := h.opened m hm
    have hne : m ≠ n := by
      rintro rfl
      exact hnlive hml
    exact ⟨(hlive m).2 (.inl hml), fun hd => hd' ((hdir m hne).1 hd)⟩
  · have hne : ROOT_INO ≠ n := by
      rintro rfl
      exact hnlive h.tree.root_alive
    exact (hdir _ hne).2 h.root
  · rw [hslot]
    exact (h.tree.link hp hfree hnlive hname).congr hlive
  · rw [hslot, Forest.put_apply] at he
    have hab : s.IsDir a ∧ b < s.count a ∧ a ≠ n := by
      split at he
      · obtain ⟨rfl, rfl⟩ := ‹_ ∧ _›
        exact ⟨hd, hj, hnp.symm⟩
      · obtain ⟨ha, hb⟩ := h.isDir a b e he
        refine ⟨ha, hb, ?_⟩
        rintro rfl
        exact hnlive (h.tree.source _ b e he)
    rw [hdir a hab.2.2, hcount a hab.2.2]
    exact ⟨hab.1, hab.2.1⟩
  · rw [hslot, Forest.put_apply] at he
    split at he
    · cases he
      exact ⟨q.ne_nil, q.nul_free, hlen⟩
    · exact h.name a b e he
  · by_cases hm' : m = n
    · subst m
      rw [hnode, if_neg hnp, if_pos rfl]
      refine ⟨by rw [hisize], by rw [hisize]; omega, fun k _ => ?_⟩
      simp [hires, hisize]
    · have hml := hliveOf m hm hm'
      rw [hnode, if_neg hm']
      split
      · subst m
        exact dirShape_congr (i := s.node p) rfl (fun _ => rfl) (h.dir p hp hd)
      · exact h.dir m hml ((hdir m hm').1 hd')
  · by_cases hm' : m = n
    · subst m
      rw [hnode, if_neg hnp, if_pos rfl]
      refine ⟨by rw [hisize]; omega, fun k _ hk => ?_, fun _ k _ _ => hires k⟩
      rw [hisize] at hk
      omega
    · have hmp : m ≠ p := by
        rintro rfl
        exact hd' ((hdir m hm').2 hd)
      rw [hnode, if_neg hmp, if_neg hm']
      exact h.file m (hliveOf m hm hm') fun hd => hd' ((hdir m hm').2 hd)
  · by_cases hm' : m = n
    · subst m
      rw [hcountn, hnode, if_neg hnp, if_pos rfl, hilink]
      rfl
    · rw [hcount m hm', hnode, if_neg hm', hslot]
      split
      · subst m
        have hlinks := h.links p hp hd
        have hle := Forest.degree_le s.slot p (s.count p)
        have hsize := (h.dir p hp hd).le
        have hc : s.count p = (s.node p).i_size / 32 := rfl
        rw [Forest.degree_put_some _ hj hfree, hdi]
        have hone : (1 : UInt32).toNat = 1 := rfl
        rw [UInt32.toNat_add, hlinks, hone]
        omega
      · rw [Forest.degree_put_of_ne _ _ _ _ ‹_›]
        exact h.links m (hliveOf m hm hm') ((hdir m hm').1 hd')
  · by_cases hm' : m = n
    · subst m
      rw [hnode, if_neg hnp, if_pos rfl, hilink]
    · have hmp : m ≠ p := by
        rintro rfl
        exact hd' ((hdir m hm').2 hd)
      rw [hnode, if_neg hmp, if_neg hm']
      exact h.link m (hliveOf m hm hm') fun hd => hd' ((hdir m hm').2 hd)
  · have hm' : m ≠ n := by
      rintro rfl
      exact hk (hblkn k)
    rw [hblk m k hm'] at hk ⊢
    rw [hdir m hm']
    exact h.owned m k (hliveOf m hm hm') hk
  · have hne : m ≠ n := by
      rintro rfl
      exact hk (hblkn k)
    have hne' : m' ≠ n := by
      rintro rfl
      exact hk (he.trans (hblkn l))
    rw [hblk m k hne] at hk he
    rw [hblk m' l hne'] at he
    exact h.sole m m' k l (hliveOf m hm hne) (hliveOf m' hm' hne') hk he
  · obtain ⟨hm, hd', hlt, hdev⟩ := h.known m off b hb
    have hne : m ≠ n := by
      rintro rfl
      exact hnlive hm
    have hmp : m ≠ p := by
      rintro rfl
      exact hd' hd
    rw [hlive, hdir m hne, hblk m _ hne, hnode, if_neg hmp, if_neg hne]
    exact ⟨.inl hm, hd', hlt, hdev⟩

/-- **An entry removed**, whose inode has no entries itself and is not open. -/
theorem dropped (h : s.Inv) {p j ino : ℕ} {name : List UInt8}
    (he : s.slot p j = some (name, ino)) (hleaf : ∀ j', s.slot ino j' = none)
    (hopen : s.opens ino = 0) : (s.drop p j ino).Inv := by
  have hp : s.Live p := h.tree.source p j _ he
  obtain ⟨hd, hj⟩ := h.isDir p j _ he
  have hino : s.Live ino := h.tree.child_alive he
  have hroot : ino ≠ ROOT_INO := h.tree.child_ne_root he
  have hpi : p ≠ ino := by
    rintro rfl
    rw [hleaf] at he
    simp at he
  set d : Inode := { (s.node p).setTimes s.now with i_nlink := (s.node p).i_nlink - 1 } with hdi
  have hnode : ∀ m, (s.drop p j ino).node m = if m = p then d else s.node m := fun m =>
    Function.update_apply _ _ _ _
  have hcore : ∀ m, (s.drop p j ino).core m =
      if m = ino then none else if m = p then some true else s.core m := by
    intro m
    simp only [Namespace.drop, Namespace.edit, Namespace.put, Function.update_apply]
  have hslot : (s.drop p j ino).slot = Forest.put s.slot p j none := rfl
  have hdset : ∀ b, (s.drop p j ino).dset b = (s.dset b && !decide (b ∈ (s.node ino).sized)) :=
    fun b => rfl
  have hlive : ∀ m, (s.drop p j ino).Live m ↔ s.Live m ∧ m ≠ ino := by
    intro m
    have hset : (s.drop p j ino).iset m = if m = ino then false else s.iset m :=
      Function.update_apply _ _ _ _
    rw [Live, Live, hset]
    by_cases hm : m = ino
    · simp [hm]
    · simp [hm]
  have hdir : ∀ m, (s.drop p j ino).IsDir m ↔ s.IsDir m := by
    intro m
    rw [IsDir, IsDir, hnode]
    split
    · rw [‹m = p›]
      rfl
    · rfl
  have hcount : ∀ m, (s.drop p j ino).count m = s.count m := by
    intro m
    rw [count, count, hnode]
    split
    · rw [‹m = p›]
      rfl
    · rfl
  have hblk : ∀ m k, ((s.drop p j ino).node m).blk k = (s.node m).blk k := by
    intro m k
    rw [hnode]
    split
    · rw [‹m = p›]
      rfl
    · rfl
  refine ⟨h.layout, ?_, fun m hm => ?_, fun m hm => ?_, fun m hm => ?_, ?_, ?_,
    fun a b e he' => ?_, fun a b e he' => ?_, fun m hm hd' => ?_, fun m hm hd' => ?_,
    fun m hm hd' => ?_, fun m hm hd' => ?_, fun m k hm hk => ?_, fun m m' k l hm hm' hk heq => ?_,
    fun m off b hb => ?_⟩
  · exact (Function.update_of_ne hino.2.symm _ _).trans h.zero
  · exact h.range m ((hlive m).1 hm).1
  · rw [hlive]
    rw [hcore] at hm
    split at hm
    · simp at hm
    split at hm
    · exact ⟨‹m = p› ▸ hp, ‹_›⟩
    · exact ⟨h.core m hm, ‹_›⟩
  · obtain ⟨hml, hd'⟩ := h.opened m hm
    rw [hlive, hdir]
    refine ⟨⟨hml, ?_⟩, hd'⟩
    rintro rfl
    exact hm hopen
  · exact (hdir _).2 h.root
  · rw [hslot]
    exact (h.tree.unlink he hleaf).congr hlive
  · rw [hslot, Forest.put_apply] at he'
    split at he'
    · simp at he'
    · rw [hdir, hcount]
      exact h.isDir a b e he'
  · rw [hslot, Forest.put_apply] at he'
    split at he'
    · simp at he'
    · exact h.name a b e he'
  · have hml := ((hlive m).1 hm).1
    rw [hnode]
    split
    · subst m
      exact dirShape_congr (i := s.node p) rfl (fun _ => rfl) (h.dir p hp hd)
    · exact h.dir m hml ((hdir m).1 hd')
  · have hmp : m ≠ p := by
      rintro rfl
      exact hd' ((hdir m).2 hd)
    rw [hnode, if_neg hmp]
    exact h.file m ((hlive m).1 hm).1 fun hd => hd' ((hdir m).2 hd)
  · rw [hcount, hnode, hslot]
    split
    · subst m
      have hlinks := h.links p hp hd
      have hdeg := Forest.degree_put_none hj he
      have hone : (1 : UInt32).toNat = 1 := rfl
      have hle : (1 : UInt32) ≤ (s.node p).i_nlink := by
        rw [UInt32.le_iff_toNat_le, hlinks, hone]
        omega
      rw [hdi]
      change ((s.node p).i_nlink - 1).toNat = _
      rw [UInt32.toNat_sub_of_le _ _ hle, hlinks, hone]
      omega
    · rw [Forest.degree_put_of_ne _ _ _ _ ‹_›]
      exact h.links m ((hlive m).1 hm).1 ((hdir m).1 hd')
  · have hmp : m ≠ p := by
      rintro rfl
      exact hd' ((hdir m).2 hd)
    rw [hnode, if_neg hmp]
    exact h.link m ((hlive m).1 hm).1 fun hd => hd' ((hdir m).2 hd)
  · obtain ⟨hml, hne⟩ := (hlive m).1 hm
    rw [hblk] at hk ⊢
    obtain ⟨hset, hdev⟩ := h.owned m k hml hk
    refine ⟨?_, fun hd' => hdev ((hdir m).1 hd')⟩
    rw [hdset, hset, Bool.true_and, Bool.not_eq_true', decide_eq_false_iff_not]
    -- a block of the removed inode has no other owner
    intro hmem
    obtain ⟨l, -, hl⟩ := List.mem_map.1 hmem
    exact hne (h.sole m ino k l hml hino hk (UInt32.toNat_inj.1 hl).symm).1
  · rw [hblk] at hk heq
    rw [hblk] at heq
    exact h.sole m m' k l ((hlive m).1 hm).1 ((hlive m').1 hm').1 hk heq
  · have hbytes : (s.drop p j ino).bytes m = if m = ino then fun _ => none else s.bytes m :=
      Function.update_apply _ _ _ _
    rw [hbytes] at hb
    split at hb
    · simp at hb
    · obtain ⟨hm, hd', hlt, hdev⟩ := h.known m off b hb
      have hmp : m ≠ p := by
        rintro rfl
        exact hd' hd
      rw [hlive, hdir, hblk, hnode, if_neg hmp]
      exact ⟨⟨hm, ‹_›⟩, hd', hlt, hdev⟩

end Inv

/-! ### Steps -/

/-- What a search for a name finds. -/
theorem named_eq_some {p j : ℕ} {q : Qstr} (h : s.named p q = some j) :
    j < s.count p ∧ ∃ ino, s.slot p j = some (q.name, ino) := by
  have hj := List.mem_of_find?_eq_some h
  have he := List.find?_some h
  rw [List.mem_range] at hj
  obtain ⟨e, he, hname⟩ := (Option.any_eq_true _ _).1 he
  obtain ⟨name, ino⟩ := e
  obtain rfl : name = q.name := beq_iff_eq.1 hname
  exact ⟨hj, ino, he⟩

theorem named_eq_none {p : ℕ} {q : Qstr} (h : s.named p q = none) {j : ℕ} (hj : j < s.count p)
    (ino : ℕ) : s.slot p j ≠ some (q.name, ino) := by
  intro he
  have := List.find?_eq_none.1 h j (List.mem_range.2 hj)
  rw [he] at this
  simp at this

/-- A name that is bound. -/
theorem bound_eq_some {p ino : ℕ} {q : Qstr} (h : s.bound p q = some ino) :
    q.len ≤ 24 ∧ ∃ j, s.named p q = some j ∧ s.slot p j = some (q.name, ino) := by
  unfold bound at h
  split at h
  · obtain ⟨j, hj, he⟩ := Option.bind_eq_some_iff.1 h
    obtain ⟨-, ino', he'⟩ := named_eq_some hj
    rw [he', Option.map_some, Option.some_inj] at he
    subst he
    exact ⟨‹_›, j, hj, he'⟩
  · simp at h

theorem bound_eq_none {p : ℕ} {q : Qstr} (h : s.bound p q = none) (hlen : q.len ≤ 24) :
    s.named p q = none := by
  unfold bound at h
  rw [if_pos hlen] at h
  cases hj : s.named p q with
  | none => rfl
  | some j =>
      obtain ⟨-, ino, he⟩ := named_eq_some hj
      rw [hj, Option.bind_some, he] at h
      simp at h

/-- The removal of a name that is bound. -/
theorem remove_of_bound {p ino : ℕ} {q : Qstr} (h : s.bound p q = some ino) :
    ∃ j, s.slot p j = some (q.name, ino) ∧ s.remove p q ino = some ((0, none), s.drop p j ino) := by
  obtain ⟨hlen, j, hj, he⟩ := bound_eq_some h
  refine ⟨j, he, ?_⟩
  rw [Namespace.remove, if_pos hlen, hj]
  rfl

/-- **What the search for a free slot does**: nothing, or one slot more at the end. -/
theorem getFree_cases {p j : ℕ} (hg : s.getFree p = some (j, s')) :
    (s.freeSlot p = some j ∧ s' = s) ∨
    (j = s.count p ∧ s.count p ≠ 1024 ∧
      ((s.count p % 128 = 0 ∧ ∃ d, (Mem.clears s.dset 32768).head? = some d ∧
          DNO2BID s.sb d < s.nblk ∧ s' = s.attach p d) ∨
        (s.count p % 128 ≠ 0 ∧ s' = s.extend p))) := by
  unfold Namespace.getFree at hg
  cases hf : s.freeSlot p with
  | some j' =>
      rw [hf] at hg
      cases hg
      exact .inl ⟨rfl, rfl⟩
  | none =>
      rw [hf] at hg
      dsimp only at hg
      refine .inr ?_
      split at hg
      · simp at hg
      rename_i hroom
      split at hg
      · rename_i halign
        cases hc : (Mem.clears s.dset 32768).head? with
        | none => simp [hc] at hg
        | some d =>
            rw [hc] at hg
            dsimp only at hg
            split at hg
            · cases hg
              exact ⟨rfl, hroom, .inl ⟨halign, d, rfl, ‹_›, rfl⟩⟩
            · simp at hg
      · cases hg
        exact ⟨rfl, hroom, .inr ⟨‹_›, rfl⟩⟩

/-- Only the directory changes, and the marks of the blocks. -/
theorem getFree_same {p j : ℕ} (hg : s.getFree p = some (j, s')) :
    s' = { s with
      dset := s'.dset
      node := Function.update s.node p (s'.node p)
      core := s'.core } := by
  obtain ⟨-, rfl⟩ | ⟨-, -, ⟨-, d, -, -, rfl⟩ | ⟨-, rfl⟩⟩ := getFree_cases hg
  · rw [Function.update_eq_self]
  · simp only [attach, Namespace.edit, Function.update_self]
  · simp only [extend, Namespace.edit, Function.update_self]

/-- **What the search for a free slot gives.** -/
structure Gives (s : Namespace) (p j : ℕ) (s' : Namespace) : Prop where
  inv : s'.Inv
  slot : s'.slot = s.slot
  iset : s'.iset = s.iset
  sb : s'.sb = s.sb
  dir : s'.IsDir p
  core : s.core p ≠ none → s'.core p ≠ none
  lt : j < s'.count p
  free : s'.slot p j = none

theorem Inv.count_le (h : s.Inv) {p : ℕ} (hp : s.Live p) (hd : s.IsDir p) :
    (s.node p).i_size = 32 * s.count p ∧ s.count p ≤ 1024 := by
  have h₁ := (h.dir p hp hd).slots
  have h₂ := (h.dir p hp hd).le
  have h₃ : s.count p = (s.node p).i_size / 32 := rfl
  omega

/-- The number of a bit is none that is reserved. -/
theorem ofNat_clear {d : ℕ} (hd : d < 32768) :
    (UInt32.ofNat d).toNat = d ∧ UInt32.ofNat d ≠ RESERVED_DNO := by
  have hnat : (UInt32.ofNat d).toNat = d :=
    UInt32.toNat_ofNat_of_lt' (by rw [UInt32.size]; omega)
  refine ⟨hnat, fun he => ?_⟩
  have hres := congrArg UInt32.toNat he
  rw [hnat] at hres
  have hr : RESERVED_DNO.toNat = 4294967295 := rfl
  omega

/-- A directory with a block more, and a slot in it. -/
theorem Inv.attach (h : s.Inv) {p d : ℕ} (hp : s.Live p) (hd : s.IsDir p) (hroom : s.count p ≠ 1024)
    (halign : s.count p % 128 = 0) (hc : (Mem.clears s.dset 32768).head? = some d)
    (hdev : DNO2BID s.sb d < s.nblk) : (s.attach p d).Inv := by
  obtain ⟨hsize, hle⟩ := h.count_le hp hd
  have hdense := (h.dir p hp hd).dense
  obtain ⟨hlt, hclear⟩ := Mem.mem_clears.1 (List.mem_of_head? hc)
  obtain ⟨hnat, hres⟩ := ofNat_clear hlt
  have hk : (s.node p).i_size / 4096 < 8 := by omega
  set i : Inode := (({ (s.node p).setBlk ((s.node p).i_size / 4096) (UInt32.ofNat d)
    with i_size := (s.node p).i_size + 32 } : Inode).setTimes s.now) with hi
  have hisize : i.i_size = (s.node p).i_size + 32 := rfl
  have hblk : ∀ k, i.blk k =
      if k = (s.node p).i_size / 4096 then UInt32.ofNat d else (s.node p).blk k :=
    fun k => (s.node p).attrs.blk_setBlk hk _ k
  refine h.alter hp (i := i) rfl rfl (by omega) (fun _ => ⟨?_, ?_, fun k hk => ?_⟩)
    (fun hnd => absurd hd hnd) (fun b hb => ?_) ((s.node p).i_size / 4096) (fun k hk => ?_)
    (.inr ⟨?_, ?_⟩)
  · rw [hisize]
    omega
  · rw [hisize]
    omega
  · rw [hblk, hisize]
    split
    · exact ⟨fun _ => by omega, fun _ => hres⟩
    · rw [hdense k hk]
      omega
  · change Function.update s.dset d true b = true
    rw [Function.update_apply]
    split
    · rfl
    · exact hb
  · rw [hblk, if_neg hk]
  · by_contra hold
    have := (hdense _ hk).1 hold
    omega
  · rw [hblk, if_pos rfl, hnat]
    exact ⟨hclear, Function.update_self _ _ _, fun _ => hdev⟩

/-- A directory with a slot more in its last block. -/
theorem Inv.extend (h : s.Inv) {p : ℕ} (hp : s.Live p) (hd : s.IsDir p)
    (halign : s.count p % 128 ≠ 0) : (s.extend p).Inv := by
  obtain ⟨hsize, hle⟩ := h.count_le hp hd
  have hdense := (h.dir p hp hd).dense
  set i : Inode := (({ s.node p with i_size := (s.node p).i_size + 32 } : Inode).setTimes
    s.now) with hi
  have hisize : i.i_size = (s.node p).i_size + 32 := rfl
  have hblk : ∀ k, i.blk k = (s.node p).blk k := fun _ => rfl
  refine h.alter hp (i := i) rfl rfl (by omega) (fun _ => ⟨?_, ?_, fun k hk => ?_⟩)
    (fun hnd => absurd hd hnd) (fun _ hb => hb) 0 (fun _ _ => rfl) (.inl rfl)
  · rw [hisize]
    omega
  · rw [hisize]
    omega
  · rw [hblk, hisize, hdense k hk]
    omega

theorem Inv.getFree (h : s.Inv) {p : ℕ} (hp : s.Live p) (hd : s.IsDir p) {j : ℕ}
    (hg : s.getFree p = some (j, s')) : s.Gives p j s' := by
  have hlast : s.slot p (s.count p) = none := h.slot_of_le le_rfl
  -- the slot is the one after the last
  have happend : ∀ s₁ : Namespace, s₁.Inv → s₁.slot = s.slot → s₁.iset = s.iset → s₁.sb = s.sb →
      (s₁.node p).i_mode = (s.node p).i_mode → (s₁.node p).i_size = (s.node p).i_size + 32 →
      s₁.core p = some true → s.Gives p (s.count p) s₁ := by
    intro s₁ hinv hslot hiset hsb hmode hsize hcore
    refine ⟨hinv, hslot, hiset, hsb, ?_, fun _ => ?_, ?_, ?_⟩
    · rw [IsDir, hmode]
      exact hd
    · rw [hcore]
      exact Option.some_ne_none _
    · rw [Namespace.count, Namespace.count, hsize]
      omega
    · rw [hslot]
      exact hlast
  obtain ⟨hf, rfl⟩ | ⟨rfl, hroom, ⟨halign, d, hc, hdev, rfl⟩ | ⟨halign, rfl⟩⟩ := getFree_cases hg
  · obtain ⟨hnone, hj, -⟩ := List.find?_range_eq_some.1 hf
    exact ⟨h, rfl, rfl, rfl, hd, id, List.mem_range.1 hj, Option.isNone_iff_eq_none.1 hnone⟩
  · refine happend _ (h.attach hp hd hroom halign hc hdev) rfl rfl rfl ?_ ?_
      (Function.update_self _ _ _)
    · simp only [Namespace.attach, Namespace.edit, Function.update_self]
      rfl
    · simp only [Namespace.attach, Namespace.edit, Function.update_self]
      rfl
  · refine happend _ (h.extend hp hd halign) rfl rfl rfl ?_ ?_ (Function.update_self _ _ _)
    · simp only [Namespace.extend, Namespace.edit, Function.update_self]
      rfl
    · simp only [Namespace.extend, Namespace.edit, Function.update_self]
      rfl

/-- **A creation keeps the invariant.** -/
theorem Inv.create (h : s.Inv) {p : ℕ} {q : Qstr} {mode : UInt16} (hp : s.holds S_ISDIR p)
    (hb : s.bound p q = none) {r : Reply} (hs : s.create p q mode = some (r, s')) : s'.Inv := by
  unfold Namespace.create at hs
  split at hs
  · rename_i hlen
    obtain ⟨⟨j, s₁⟩, hg, hs⟩ := Option.bind_eq_some_iff.1 hs
    obtain ⟨n, hn, hs⟩ := Option.map_eq_some_iff.1 hs
    have hlive := h.core p hp.1
    have hgives := h.getFree hlive hp.2 hg
    split at hs
    · rename_i hlt
      cases hs
      obtain ⟨-, hclear⟩ := Mem.mem_clears.1 (List.mem_of_head? hn)
      refine hgives.inv.linked mode ?_ hgives.dir hgives.lt hgives.free (fun j' c he => ?_) hlen
        (by rw [hgives.iset, hclear]) (by rwa [hgives.sb])
      · rw [Live, hgives.iset]
        exact hlive
      · rw [hgives.slot] at he
        exact named_eq_none (bound_eq_none hb hlen) (h.isDir p j' _ he).2 c he
    · cases hs
      exact hgives.inv
  · cases hs
    exact h

/-- The inode an entry leads to has no entries itself: it is a file, or a directory with one
link. -/
theorem Inv.leaf (h : s.Inv) {n : ℕ} (hn : s.Live n)
    (hlink : s.IsDir n → ¬(s.node n).i_nlink > 1) (j : ℕ) : s.slot n j = none := by
  by_cases hd : s.IsDir n
  · have hlinks := h.links n hn hd
    have hle : (s.node n).i_nlink.toNat ≤ 1 := UInt32.not_lt.1 (hlink hd)
    rcases Nat.lt_or_ge j (s.count n) with hj | hj
    · exact Forest.degree_eq_zero_iff.1 (by omega) j hj
    · exact h.slot_of_le hj
  · exact h.slot_of_file hd j

/-- **So does a removal.** -/
theorem Inv.remove (h : s.Inv) {p ino : ℕ} {q : Qstr} (hb : s.bound p q = some ino)
    (hlink : s.IsDir ino → ¬(s.node ino).i_nlink > 1) (hopen : s.opens ino = 0) {r : Reply}
    (hs : s.remove p q ino = some (r, s')) : s'.Inv := by
  obtain ⟨hlen, j, hj, he⟩ := bound_eq_some hb
  unfold Namespace.remove at hs
  rw [if_pos hlen, hj] at hs
  cases hs
  exact h.dropped he (h.leaf (h.tree.child_alive he) hlink) hopen

/-- Reading an inode in. -/
theorem Inv.load (h : s.Inv) {n : ℕ} (hn : s.Live n) : (s.load n).Inv := by
  refine h.congr rfl rfl rfl rfl rfl rfl (fun m hm => ?_) (fun m hm => ?_) h.opened
  · simp only [Namespace.load, Function.update_apply]
    split
    · subst m
      exact h.attrs_narrow hn
    · rfl
  · simp only [Namespace.load, Function.update_apply] at hm
    split at hm
    · subst m
      exact hn
    · exact h.core m hm

/-- A new block at the end of the block map of a file. -/
theorem Inv.grant (h : s.Inv) {n k d : ℕ} (hn : s.Live n) (hf : ¬s.IsDir n) (hk : k < 8)
    (hlow : ∀ j < k, (s.node n).blk j ≠ RESERVED_DNO)
    (hhigh : ∀ j, k ≤ j → (s.node n).blk j = RESERVED_DNO)
    (hd : (Mem.clears s.dset 32768).head? = some d) : (s.grant n k d).Inv := by
  obtain ⟨hlt, hclear⟩ := Mem.mem_clears.1 (List.mem_of_head? hd)
  obtain ⟨hnat, hres⟩ := ofNat_clear hlt
  have hfile := h.file n hn hf
  have hblk : ∀ j, ((s.node n).setBlk k (UInt32.ofNat d)).blk j =
      if j = k then UInt32.ofNat d else (s.node n).blk j := fun j =>
    (s.node n).attrs.blk_setBlk hk _ j
  refine h.alter hn (i := (s.node n).setBlk k (UInt32.ofNat d)) rfl rfl le_rfl
    (fun hd => absurd hd hf) (fun _ => ⟨hfile.le, fun j hj hsz => ?_, fun j l hjl hj => ?_⟩)
    (fun b hb => ?_) k (fun j hj => ?_) (.inr ⟨hhigh k le_rfl, ?_⟩)
  · rw [hblk]
    split
    · exact hres
    · exact hfile.covered j hj hsz
  · rw [hblk] at hj ⊢
    split at hj
    · exact absurd hj hres
    · have hjk : k ≤ j := by
        by_contra hlt
        exact hlow j (Nat.lt_of_not_le hlt) hj
      rw [if_neg (by omega)]
      exact hhigh l (by omega)
  · dsimp only
    rw [Function.update_apply]
    split
    · rfl
    · exact hb
  · rw [hblk, if_neg hj]
  · rw [hblk, if_pos rfl, hnat]
    exact ⟨hclear, Function.update_self _ _ _, fun hd => absurd hd hf⟩

/-- **A file with `m` blocks more**, from entry `k` of its block map on: they are the first that
were free. -/
structure Grown (s : Namespace) (n m k : ℕ) (s' : Namespace) : Prop where
  inv : s'.Inv
  same : s' = { s with
    dset := s'.dset
    node := Function.update s.node n (s'.node n)
    core := s'.core }
  attrs : s'.node n = { s.node n with i_block := (s'.node n).i_block }
  core : ∀ x, s'.core x = if x = n ∧ 0 < m then some true else s.core x
  len : m ≤ (Mem.clears s.dset 32768).length
  old : ∀ j < k, (s'.node n).blk j = (s.node n).blk j
  new : ∀ j < m, (s'.node n).blk (k + j) = UInt32.ofNat ((Mem.clears s.dset 32768).getD j 0)
  free : ∀ j, k + m ≤ j → (s'.node n).blk j = RESERVED_DNO

theorem Inv.assign (h : s.Inv) {n m k : ℕ} (hn : s.Live n) (hf : ¬s.IsDir n) (hk : k + m ≤ 8)
    (hlow : ∀ j < k, (s.node n).blk j ≠ RESERVED_DNO)
    (hhigh : ∀ j, k ≤ j → (s.node n).blk j = RESERVED_DNO) (hs : s.assign n m k = some s') :
    Grown s n m k s' := by
  induction m generalizing s k with
  | zero =>
      cases hs
      refine ⟨h, ?_, rfl, fun x => ?_, Nat.zero_le _, fun _ _ => rfl,
        fun _ hj => absurd hj (Nat.not_lt_zero _), hhigh⟩
      · rw [Function.update_eq_self]
      · rw [if_neg fun hx => absurd hx.2 (Nat.lt_irrefl 0)]
  | succ m ih =>
      obtain ⟨d, hd, hs⟩ := Option.bind_eq_some_iff.1 hs
      obtain ⟨l, hl⟩ : ∃ l, Mem.clears s.dset 32768 = d :: l := by
        cases hc : Mem.clears s.dset 32768 with
        | nil => simp [hc] at hd
        | cons e l =>
            rw [hc, List.head?_cons, Option.some_inj] at hd
            exact ⟨l, by rw [hd]⟩
      obtain ⟨hlt, -⟩ := Mem.mem_clears.1 (List.mem_of_head? hd)
      have hnode : (s.grant n k d).node n = (s.node n).setBlk k (UInt32.ofNat d) :=
        Function.update_self _ _ _
      have hblk : ∀ j, ((s.grant n k d).node n).blk j =
          if j = k then UInt32.ofNat d else (s.node n).blk j := fun j => by
        rw [hnode]
        exact (s.node n).attrs.blk_setBlk (by omega) _ j
      have hclears : Mem.clears (s.grant n k d).dset 32768 = l := Mem.clears_update_head hl
      have hfile : ¬(s.grant n k d).IsDir n := by
        rw [IsDir, hnode]
        exact hf
      have hrest := ih (s := s.grant n k d) (k := k + 1) (h.grant hn hf (by omega) hlow hhigh hd)
        hn hfile (by omega) (fun j hj => ?_) (fun j hj => ?_) hs
      · have hcore : ∀ x, (s.grant n k d).core x = if x = n then some true else s.core x :=
          fun x => Function.update_apply _ _ _ _
        refine ⟨hrest.inv, hrest.same.trans ?_, hrest.attrs.trans ?_, fun x => ?_, ?_, fun j hj => ?_,
          fun j hj => ?_, fun j hj => hrest.free j (by omega)⟩
        · simp only [Namespace.grant, Namespace.edit, Function.update_idem]
        · rw [hnode]
          rfl
        · rw [hrest.core, hcore]
          by_cases hx : x = n
          · simp [hx]
          · simp [hx]
        · have hlen := hrest.len
          rw [hclears] at hlen
          rw [hl, List.length_cons]
          omega
        · rw [hrest.old j (by omega), hblk, if_neg (by omega)]
        · cases j with
          | zero =>
              rw [Nat.add_zero, hrest.old k (by omega), hblk, if_pos rfl, hl]
              rfl
          | succ j =>
              have hnew := hrest.new j (by omega)
              rw [hclears, Nat.add_right_comm, Nat.add_assoc] at hnew
              rw [hnew, hl]
              rfl
      · rw [hblk]
        split
        · exact (ofNat_clear hlt).2
        · exact hlow j (by omega)
      · rw [hblk, if_neg (by omega)]
        exact hhigh j (by omega)

/-- The blocks of a file up to entry `k`. -/
theorem Inv.mapTo (h : s.Inv) {n k : ℕ} (hn : s.Live n) (hf : ¬s.IsDir n) (hk : k < 8)
    (hs : s.mapTo n k = some s') :
    Grown s n (k + 1 - countAssigned (s.node n) YAF_IBLOCKS 0)
      (countAssigned (s.node n) YAF_IBLOCKS 0) s' ∧
    ∀ j ≤ k, (s'.node n).blk j ≠ RESERVED_DNO := by
  obtain ⟨hle, hlow, -⟩ := countAssigned_spec (s.node n)
  have hgrown := h.assign hn hf (by omega) hlow (fun j hj => (h.file n hn hf).blk_free hj) hs
  refine ⟨hgrown, fun j hj => ?_⟩
  rcases Nat.lt_or_ge j (countAssigned (s.node n) YAF_IBLOCKS 0) with hj' | hj'
  · rw [hgrown.old j hj']
    exact hlow j hj'
  · obtain ⟨i, rfl⟩ := Nat.exists_eq_add_of_le hj'
    have hi : i < k + 1 - countAssigned (s.node n) YAF_IBLOCKS 0 := by omega
    have hlen := hgrown.len
    rw [hgrown.new i hi, List.getD_eq_getElem _ _ (by omega)]
    exact (ofNat_clear (Mem.mem_clears.1 (List.getElem_mem _)).1).2

/-- Other bytes are known. -/
theorem Inv.learn (h : s.Inv) {f : ℕ → ℕ → Option UInt8}
    (hf : ∀ n off b, f n off = some b → s.Live n ∧ ¬s.IsDir n ∧ off < (s.node n).i_size ∧
      DNO2BID s.sb ((s.node n).blk (off / 4096)).toNat < s.nblk) :
    ({ s with bytes := f } : Namespace).Inv :=
  ⟨h.layout, h.zero, h.range, h.core, h.opened, h.root, h.tree, h.isDir, h.name, h.dir, h.file,
    h.links, h.link, h.owned, h.sole, hf⟩

/-- **Bytes stored** in blocks that the file has. -/
theorem Inv.store (h : s.Inv) {n pos copied : ℕ} {data : List UInt8} (hn : s.Live n)
    (hf : ¬s.IsDir n) (hlen : pos + copied ≤ 32768)
    (hblk : ∀ k, k * 4096 < pos + copied → (s.node n).blk k ≠ RESERVED_DNO)
    (hdev : ∀ off, pos ≤ off → off < pos + copied →
      DNO2BID s.sb ((s.node n).blk (off / 4096)).toNat < s.nblk) :
    (s.store n pos data copied).Inv := by
  have hfile := h.file n hn hf
  set f : ℕ → ℕ → Option UInt8 := Function.update s.bytes n fun off =>
    if pos ≤ off ∧ off < pos + copied then some (data.getD (off - pos) 0) else s.bytes n off with hf'
  set s₂ : Namespace := if pos + copied > (s.node n).i_size then
      s.edit n fun i => { i with i_size := pos + copied }
    else s with hs₂
  -- first the size, then the bytes
  have hstore : s.store n pos data copied =
      if copied < data.length then { s₂ with bytes := f }
      else ({ s₂ with bytes := f } : Namespace).edit n fun i =>
        { i with i_ctime := s.now, i_mtime := s.now } := rfl
  have hsize : s₂.Inv ∧ s₂.sb = s.sb ∧ s₂.nblk = s.nblk ∧ (∀ m, s₂.Live m ↔ s.Live m) ∧
      (∀ m, s₂.IsDir m ↔ s.IsDir m) ∧ (∀ m k, (s₂.node m).blk k = (s.node m).blk k) ∧
      (∀ m, (s.node m).i_size ≤ (s₂.node m).i_size) ∧ pos + copied ≤ (s₂.node n).i_size := by
    rw [hs₂]
    split
    · rename_i hgrow
      have hnode : ∀ m, (s.edit n fun i => { i with i_size := pos + copied }).node m =
          if m = n then { s.node n with i_size := pos + copied } else s.node m := fun m =>
        Function.update_apply _ _ _ _
      refine ⟨h.alter hn (i := { s.node n with i_size := pos + copied }) rfl rfl
        (Nat.le_of_lt hgrow) (fun hd => absurd hd hf) (fun _ => ⟨hlen, fun k _ hk => hblk k hk,
          hfile.dense⟩) (fun _ hd => hd) 0 (fun _ _ => rfl) (.inl rfl), rfl, rfl,
        fun _ => Iff.rfl, fun m => ?_, fun m k => ?_, fun m => ?_, ?_⟩
      · rw [IsDir, IsDir, hnode]
        split
        · rw [‹m = n›]
        · rfl
      · rw [hnode]
        split
        · rw [‹m = n›]
          rfl
        · rfl
      · rw [hnode]
        split
        · rw [‹m = n›]
          exact Nat.le_of_lt hgrow
        · exact le_rfl
      · rw [hnode, if_pos rfl]
    · exact ⟨h, rfl, rfl, fun _ => Iff.rfl, fun _ => Iff.rfl, fun _ _ => rfl, fun _ => le_rfl,
        Nat.not_lt.1 ‹_›⟩
  obtain ⟨hinv₂, hsb, hnblk, hlive, hdir, hblk₂, hsz, hend⟩ := hsize
  have hlearn : ({ s₂ with bytes := f } : Namespace).Inv := by
    refine hinv₂.learn fun m off b hb => ?_
    have hold : ∀ b, s.bytes m off = some b → s₂.Live m ∧ ¬s₂.IsDir m ∧
        off < (s₂.node m).i_size ∧
        DNO2BID s₂.sb ((s₂.node m).blk (off / 4096)).toNat < s₂.nblk := by
      intro b hb
      obtain ⟨hm, hd, hlt, hdev⟩ := h.known m off b hb
      rw [hlive, hdir, hblk₂, hsb, hnblk]
      exact ⟨hm, hd, Nat.lt_of_lt_of_le hlt (hsz m), hdev⟩
    rw [hf', Function.update_apply] at hb
    split at hb
    · subst m
      dsimp only at hb
      split at hb
      · rename_i hoff
        rw [hlive, hdir, hblk₂, hsb, hnblk]
        exact ⟨hn, hf, by omega, hdev off hoff.1 hoff.2⟩
      · exact hold b hb
    · exact hold b hb
  rw [hstore]
  split
  · exact hlearn
  · exact hlearn.edit ((hlive n).2 hn) rfl

/-- **What a write does**: nothing, or the file gets the blocks up to the last one that is written,
and the bytes are stored if this block is on the device. -/
theorem Inv.write_cases (h : s.Inv) {n pos copied : ℕ} {data : List UInt8} (hn : s.Live n)
    (hf : ¬s.IsDir n) (hlen : 0 < data.length) {r : Reply}
    (hs : s.write n pos data copied = some (r, s')) :
    (r = (-ENOSPC, none) ∧ s' = s) ∨ pos + data.length ≤ 32768 ∧
      ∃ s₁, Grown s n (pos / 4096 + 1 - countAssigned (s.node n) YAF_IBLOCKS 0)
        (countAssigned (s.node n) YAF_IBLOCKS 0) s₁ ∧
      (∀ j ≤ pos / 4096, (s₁.node n).blk j ≠ RESERVED_DNO) ∧
      ((DNO2BID s.sb ((s₁.node n).blk (pos / 4096)).toNat < s.nblk ∧ r = ((copied : ℤ), none) ∧
          s' = s₁.store n pos data copied) ∨
        (¬DNO2BID s.sb ((s₁.node n).blk (pos / 4096)).toNat < s.nblk ∧ r = (- EIO, none) ∧
          s' = s₁)) := by
  unfold Namespace.write at hs
  split at hs
  · cases hs
    exact .inl ⟨rfl, rfl⟩
  · obtain ⟨s₁, hmap, hs⟩ := Option.map_eq_some_iff.1 hs
    obtain ⟨hgrown, hblk⟩ := h.mapTo hn hf (by omega) hmap
    refine .inr ⟨by omega, s₁, hgrown, hblk, ?_⟩
    split at hs
    · cases hs
      exact .inl ⟨‹_›, rfl, rfl⟩
    · cases hs
      exact .inr ⟨‹_›, rfl, rfl⟩

/-- **A write keeps the invariant.** -/
theorem Inv.write (h : s.Inv) {n pos copied : ℕ} {data : List UInt8} (hn : s.Live n)
    (hf : ¬s.IsDir n) (hlen : 0 < data.length) (hpage : pos % 4096 + data.length ≤ 4096)
    (hcopied : copied ≤ data.length) {r : Reply}
    (hs : s.write n pos data copied = some (r, s')) : s'.Inv := by
  obtain ⟨-, rfl⟩ | ⟨hle, s₁, hgrown, hblk, ⟨hdev, -, rfl⟩ | ⟨-, -, rfl⟩⟩ :=
    h.write_cases hn hf hlen hs
  · exact h
  · have hsame := hgrown.same
    have hlive : s₁.Live n := by
      rw [hsame]
      exact hn
    have hfile : ¬s₁.IsDir n := by
      rw [IsDir, hgrown.attrs]
      exact hf
    have hsb : s₁.sb = s.sb ∧ s₁.nblk = s.nblk := by
      rw [hsame]
      exact ⟨rfl, rfl⟩
    refine hgrown.inv.store hlive hfile (by omega) (fun k hk => hblk k (by omega))
      fun off hoff hoff' => ?_
    have hpos : off / 4096 = pos / 4096 := by omega
    rw [hpos, hsb.1, hsb.2]
    exact hdev
  · exact hgrown.inv

/-- **The operations keep the invariant.** -/
theorem Inv.step (h : s.Inv) {op : Op} (hpre : s.Pre op) {r : Reply}
    (hs : s.step op = some (r, s')) : s'.Inv := by
  cases op with
  | lookup p q =>
      obtain rfl : (s.lookup p q).2 = s' := congrArg Prod.snd (Option.some.inj hs)
      unfold Namespace.lookup
      split
      · have hp := h.core p hpre.1
        cases hb : s.bound p q with
        | none => exact h.edit (f := fun i => { i with i_atime := s.now }) hp rfl
        | some n =>
            obtain ⟨-, j, -, he⟩ := bound_eq_some hb
            exact (h.load (h.tree.child_alive he)).edit (f := fun i => { i with i_atime := s.now })
              hp rfl
      · exact h
  | create p q mode => exact h.create hpre.1 hpre.2.1 hs
  | mkdir p q mode => exact h.create hpre.1 hpre.2.1 hs
  | unlink p q ino =>
      obtain ⟨-, hb, hfile, hopen⟩ := hpre
      refine h.remove hb (fun hd => ?_) hopen hs
      have := hfile.2
      rw [Bool.not_eq_true'] at this
      exact absurd (hd.symm.trans this) (by decide)
  | rmdir p q ino =>
      obtain ⟨-, hb, hdir⟩ := hpre
      have hopen : s.opens ino = 0 := by
        by_contra hne
        exact (h.opened ino hne).2 hdir.2
      simp only [Namespace.step] at hs
      split at hs
      · cases hs
        exact h
      · rename_i hlink
        exact h.remove hb (fun _ => hlink) hopen hs
  | openFile n =>
      cases hs
      refine h.congr rfl rfl rfl rfl rfl rfl (fun _ _ => rfl) h.core fun m hm => ?_
      by_cases hmn : m = n
      · subst m
        exact ⟨h.core n hpre.1, hpre.not_isDir⟩
      · exact h.opened m (by simpa [Function.update_apply, hmn] using hm)
  | closeFile n =>
      cases hs
      refine h.congr rfl rfl rfl rfl rfl rfl (fun _ _ => rfl) h.core fun m hm => ?_
      refine h.opened m fun h₀ => hm ?_
      change Function.update s.opens n (s.opens n - 1) m = 0
      rw [Function.update_apply]
      split
      · rw [← ‹m = n›, h₀]
      · exact h₀
  | writeInode n =>
      cases hs
      refine h.congr rfl rfl rfl rfl rfl rfl (fun _ _ => rfl) (fun m hm => ?_) h.opened
      simp only [Function.update_apply] at hm
      split at hm
      · subst m
        exact h.core n hpre
      · exact h.core m hm
  | evict n =>
      cases hs
      have hn : s.Live n := h.core n (by rw [hpre.1]; simp)
      refine h.congr rfl rfl rfl rfl rfl rfl (fun m hm => ?_) (fun m hm => ?_) h.opened
      · simp only [Function.update_apply]
        split
        · subst m
          exact h.attrs_narrow hn
        · rfl
      · simp only [Function.update_apply] at hm
        split at hm
        · simp at hm
        · exact h.core m hm
  | tick => cases hs; exact h.congr rfl rfl rfl rfl rfl rfl (fun _ _ => rfl) h.core h.opened
  | write n pos data copied =>
      obtain ⟨hreg, hlen, hpage, hcopied⟩ := hpre
      exact h.write (h.core n hreg.1) hreg.not_isDir hlen hpage hcopied hs
  | setSize | device => simp [Namespace.step] at hs

end Namespace

end Yaf
