/-
**The state the driver runs in.**

The driver reads and changes the blocks of one device and the in-memory inodes of one mount.
A `World` holds both, together with what the driver asks the kernel for: the clock, the
credentials of the caller, and whether the next read of a block succeeds.

The buffer cache is coherent here: `sb_bread` gives access to the one copy of a block, and a store
through `b_data` changes that copy.  `mark_buffer_dirty` and `brelse` therefore have no counterpart.
In-memory inodes are looked up by number, since the inode cache holds at most one for each number.

Main definitions:

* `Yaf.Inode` — `struct inode` with the `i_block` array of `Yaf_Inode_Info`;
* `Yaf.Yaf_Inode` — the on-disk inode, with its codec;
* `Yaf.World`, `Yaf.Driver` — the state, and programs over it;
* `Yaf.Fault` — the ways in which the driver stops for good;
* `Yaf.sb_bread`, `Yaf.iget_locked`, `Yaf.unlock_new_inode`, `Yaf.mark_inode_dirty` — the kernel
  functions the driver calls.
-/

import Yaf.Layout
import Mathlib.Data.Fin.VecNotation

set_option relaxedAutoImplicit false
set_option autoImplicit false

namespace Yaf

open Prog

/-! ### Error numbers and modes -/

abbrev ENOENT : ℤ := 2
abbrev EIO : ℤ := 5
abbrev ENOMEM : ℤ := 12
abbrev ENOTDIR : ℤ := 20
abbrev EINVAL : ℤ := 22
abbrev EFBIG : ℤ := 27
abbrev ENOSPC : ℤ := 28
abbrev ENAMETOOLONG : ℤ := 36
abbrev ENOTEMPTY : ℤ := 39

abbrev S_IFMT : UInt16 := 0o170000
abbrev S_IFDIR : UInt16 := 0o040000
abbrev S_IFREG : UInt16 := 0o100000
abbrev S_ISGID : UInt16 := 0o002000

def S_ISDIR (m : UInt16) : Bool := m &&& S_IFMT == S_IFDIR
def S_ISREG (m : UInt16) : Bool := m &&& S_IFMT == S_IFREG

/-- A file is no directory. -/
theorem S_ISDIR_of_S_ISREG {m : UInt16} (h : S_ISREG m = true) : S_ISDIR m = false := by
  rw [S_ISREG, beq_iff_eq] at h
  rw [S_ISDIR, h]
  decide

/-! ### Inodes -/

/-- `struct inode` together with `Yaf_Inode_Info`.  Times are whole seconds: no function of the
driver reads the nanoseconds. -/
structure Inode where
  i_mode : UInt16
  i_uid : UInt32
  i_gid : UInt32
  i_nlink : UInt32
  i_size : ℕ
  i_atime : ℤ
  i_mtime : ℤ
  i_ctime : ℤ
  i_block : Fin YAF_IBLOCKS → UInt32

/-- Entry `k` of `i_block`; past the array the model has `RESERVED_DNO`. -/
def Inode.blk (i : Inode) (k : ℕ) : UInt32 :=
  if h : k < YAF_IBLOCKS then i.i_block ⟨k, h⟩ else RESERVED_DNO

/-- The on-disk inode structure. -/
structure Yaf_Inode where
  i_mode : UInt32
  i_uid : UInt32
  i_gid : UInt32
  i_nlink : UInt32
  i_size : UInt32
  i_atime : UInt32
  i_mtime : UInt32
  i_ctime : UInt32
  i_block : Fin YAF_IBLOCKS → UInt32

/-- The contents of a block. -/
abbrev Block : Type := ℕ → UInt8

/-- The device: a block for each block id. -/
abbrev Disk : Type := ℕ → Block

/-- The on-disk inode at byte `off` of a block. -/
def Yaf_Inode.read (b : Block) (off : ℕ) : Yaf_Inode where
  i_mode := Mem.rd32 b off
  i_uid := Mem.rd32 b (off + 4)
  i_gid := Mem.rd32 b (off + 8)
  i_nlink := Mem.rd32 b (off + 12)
  i_size := Mem.rd32 b (off + 16)
  i_atime := Mem.rd32 b (off + 20)
  i_mtime := Mem.rd32 b (off + 24)
  i_ctime := Mem.rd32 b (off + 28)
  i_block := fun k => Mem.rd32 b (off + 32 + 4 * k.val)

/-- The sixteen words of an on-disk inode. -/
def Yaf_Inode.words (y : Yaf_Inode) : List UInt32 :=
  [y.i_mode, y.i_uid, y.i_gid, y.i_nlink, y.i_size, y.i_atime, y.i_mtime, y.i_ctime,
    y.i_block 0, y.i_block 1, y.i_block 2, y.i_block 3, y.i_block 4, y.i_block 5, y.i_block 6,
    y.i_block 7]

/-- What `yaf_write_inode` stores: every field narrowed to 32 bits. -/
def Inode.toDisk (i : Inode) : Yaf_Inode where
  i_mode := i.i_mode.toUInt32
  i_uid := i.i_uid
  i_gid := i.i_gid
  i_nlink := i.i_nlink
  i_size := UInt32.ofNat i.i_size
  i_atime := UInt32.ofInt i.i_atime
  i_mtime := UInt32.ofInt i.i_mtime
  i_ctime := UInt32.ofInt i.i_ctime
  i_block := i.i_block

/-- What `yaf_iget` makes of an on-disk inode. -/
def Yaf_Inode.toMem (y : Yaf_Inode) : Inode where
  i_mode := y.i_mode.toUInt16
  i_uid := y.i_uid
  i_gid := y.i_gid
  i_nlink := y.i_nlink
  i_size := y.i_size.toNat
  i_atime := y.i_atime.toNat
  i_mtime := y.i_mtime.toNat
  i_ctime := y.i_ctime.toNat
  i_block := y.i_block

/-! ### The world -/

/-- An entry of the inode cache: the in-memory inode, and the flags of its `i_state`. -/
structure InCore where
  inode : Inode
  /-- modified since it was last written back -/
  dirty : Bool
  /-- `I_NEW`: locked by whoever is filling it in -/
  isNew : Bool

/-- The place in the driver a block is read from. -/
inductive Site where
  | superblock
  | bitmap
  | inode
  /-- the loop over the slots of a directory -/
  | scan
  /-- the block of a dentry that was found or appended -/
  | dentry
  | page

/-- What the driver asks the kernel for and may be refused. -/
inductive Req where
  | bread (site : Site) (bid : ℕ)
  | kzalloc
  | iget_locked
  | d_make_root

/-- **The state of a mounted volume.** -/
structure World where
  sb : Yaf_Sb_Info
  /-- the number of blocks of the device -/
  nblk : ℕ
  disk : Disk
  icache : ℕ → Option InCore
  /-- how many open handles the file of an inode number has -/
  opens : ℕ → ℕ
  now : ℤ
  fsuid : UInt32
  fsgid : UInt32
  /-- which requests are granted, depending on what the device holds by then -/
  io : Req → Disk → Bool

/-- The ways in which the driver stops for good. -/
inductive Fault where
  /-- an assertion failed: `assert` is `panic()` in the kernel -/
  | panic
  /-- an access outside the `i_block` array -/
  | outOfBounds
  /-- waiting for an in-memory inode that nobody unlocks -/
  | blocked
  /-- an in-memory inode was used that the VFS does not hold -/
  | stale
  deriving DecidableEq

/-- Driver code. -/
abbrev Driver (α : Type) : Type := Prog Fault World α

/-- Every request is granted. -/
def ioOk : Req → Disk → Bool := fun _ _ => true

namespace World

/-- Replacing a block. -/
def setBlock (w : World) (bid : ℕ) (b : Block) : World :=
  { w with disk := Function.update w.disk bid b }

/-- Replacing an entry of the inode cache. -/
def setCore (w : World) (ino : ℕ) (c : Option InCore) : World :=
  { w with icache := Function.update w.icache ino c }

/-- The in-memory inode, if there is one and it is not locked by whoever fills it in. -/
def inode? (w : World) (ino : ℕ) : Option Inode :=
  match w.icache ino with
  | some c => if c.isNew then none else some c.inode
  | none => none

/-- Whether a read of a block succeeds.  There is no block past the device. -/
def readable (w : World) (site : Site) (bid : ℕ) : Bool :=
  w.io (.bread site bid) w.disk && decide (bid < w.nblk)

/-- When nothing is refused, every block of the device can be read. -/
theorem readable_of_ioOk (w : World) (hio : w.io = ioOk) (site : Site) {bid : ℕ}
    (h : bid < w.nblk) : w.readable site bid = true := by
  rw [readable, hio, decide_eq_true h]
  rfl

/-- Changing the fields of an in-memory inode. -/
def edit (w : World) (ino : ℕ) (f : Inode → Inode) : World :=
  w.setCore ino ((w.icache ino).map fun c => { c with inode := f c.inode })

/-- Changing the fields of an in-memory inode and marking it dirty. -/
def touch (w : World) (ino : ℕ) (f : Inode → Inode) : World :=
  w.setCore ino ((w.icache ino).map fun c => { c with inode := f c.inode, dirty := true })

end World

/-! ### The kernel -/

def assert (c : Bool) : Driver Unit := if c then pure () else throw .panic

/-- Asking the kernel. -/
def ask (r : Req) : Driver Bool := do
  let w ← get
  pure (w.io r w.disk)

/-- `sb_bread`: whether the buffer of a block could be had. -/
def sb_bread (site : Site) (bid : ℕ) : Driver Bool := do pure ((← get).readable site bid)

/-- The contents of a buffer. -/
def bData (bid : ℕ) : Driver Block := do pure ((← get).disk bid)

/-- A store through `b_data`. -/
def modifyBuf (bid : ℕ) (f : Block → Block) : Driver Unit :=
  modify fun w => w.setBlock bid (f (w.disk bid))

/-- The in-memory inode of a number the VFS holds. -/
def getInode (ino : ℕ) : Driver Inode := do
  match (← get).inode? ino with
  | some i => pure i
  | none => throw .stale

/-- An assignment to fields of an in-memory inode. -/
def modifyInode (ino : ℕ) (f : Inode → Inode) : Driver Unit :=
  modify fun w => w.setCore ino ((w.icache ino).map fun c => { c with inode := f c.inode })

def mark_inode_dirty (ino : ℕ) : Driver Unit :=
  modify fun w => w.setCore ino ((w.icache ino).map fun c => { c with dirty := true })

/-- A new in-memory inode, before it is filled in. -/
def Inode.blank : Inode := ⟨0, 0, 0, 1, 0, 0, 0, 0, fun _ => 0⟩

/-- `iget_locked`: the cached inode, after its lock was released, or a new one, locked.  `false`
stands for the null pointer. -/
def iget_locked (ino : ℕ) : Driver Bool := do
  match (← get).icache ino with
  | some c => if c.isNew then throw .blocked else pure true
  | none =>
      if ← ask .iget_locked then
        modify fun w => w.setCore ino (some ⟨Inode.blank, false, true⟩)
        pure true
      else pure false

def unlock_new_inode (ino : ℕ) : Driver Unit :=
  modify fun w => w.setCore ino ((w.icache ino).map fun c => { c with isNew := false })

def current_time : Driver ℤ := do pure (← get).now

/-- The inode's `i_block[k]`; an access past the array is a fault. -/
def iblock (i : Inode) (k : ℕ) : Driver UInt32 :=
  if h : k < YAF_IBLOCKS then pure (i.i_block ⟨k, h⟩) else throw .outOfBounds

/-- `i_block[k] = dno`. -/
def setIblock (ino : ℕ) (k : ℕ) (dno : UInt32) : Driver Unit :=
  if h : k < YAF_IBLOCKS then
    modifyInode ino fun i => { i with i_block := Function.update i.i_block ⟨k, h⟩ dno }
  else throw .outOfBounds

/-- `inode_set_atime_to_ts`, `inode_set_mtime_to_ts` and `inode_set_ctime_to_ts`. -/
def Inode.setTimes (i : Inode) (t : ℤ) : Inode :=
  { i with i_atime := t, i_mtime := t, i_ctime := t }

/-- `i_block[k] = dno`, as a function of the inode. -/
def Inode.setBlk (i : Inode) (k : ℕ) (dno : UInt32) : Inode :=
  { i with i_block := fun j => if j.val = k then dno else i.i_block j }

/-! ### What the kernel functions do -/

@[simp] theorem Inode.blk_of_lt (i : Inode) {k : ℕ} (h : k < 8) : i.blk k = i.i_block ⟨k, h⟩ :=
  dif_pos h

theorem Inode.blk_of_le (i : Inode) {k : ℕ} (h : 8 ≤ k) : i.blk k = RESERVED_DNO :=
  dif_neg (Nat.not_lt.2 h)

namespace World

section SetCore

variable (w : World) (ino : ℕ) (c : Option InCore)

@[simp] theorem sb_setCore : (w.setCore ino c).sb = w.sb := rfl
@[simp] theorem nblk_setCore : (w.setCore ino c).nblk = w.nblk := rfl
@[simp] theorem disk_setCore : (w.setCore ino c).disk = w.disk := rfl
@[simp] theorem opens_setCore : (w.setCore ino c).opens = w.opens := rfl
@[simp] theorem now_setCore : (w.setCore ino c).now = w.now := rfl
@[simp] theorem fsuid_setCore : (w.setCore ino c).fsuid = w.fsuid := rfl
@[simp] theorem fsgid_setCore : (w.setCore ino c).fsgid = w.fsgid := rfl
@[simp] theorem io_setCore : (w.setCore ino c).io = w.io := rfl

@[simp] theorem icache_setCore_self : (w.setCore ino c).icache ino = c :=
  Function.update_self _ _ _

theorem icache_setCore_of_ne {m : ℕ} (h : m ≠ ino) : (w.setCore ino c).icache m = w.icache m :=
  Function.update_of_ne h _ _

@[simp] theorem setCore_setCore (c' : Option InCore) :
    (w.setCore ino c).setCore ino c' = w.setCore ino c' := by
  simp [setCore]

end SetCore

section SetBlock

variable (w : World) (bid : ℕ) (b : Block)

@[simp] theorem sb_setBlock : (w.setBlock bid b).sb = w.sb := rfl
@[simp] theorem nblk_setBlock : (w.setBlock bid b).nblk = w.nblk := rfl
@[simp] theorem icache_setBlock : (w.setBlock bid b).icache = w.icache := rfl
@[simp] theorem opens_setBlock : (w.setBlock bid b).opens = w.opens := rfl
@[simp] theorem now_setBlock : (w.setBlock bid b).now = w.now := rfl
@[simp] theorem fsuid_setBlock : (w.setBlock bid b).fsuid = w.fsuid := rfl
@[simp] theorem fsgid_setBlock : (w.setBlock bid b).fsgid = w.fsgid := rfl
@[simp] theorem io_setBlock : (w.setBlock bid b).io = w.io := rfl

@[simp] theorem disk_setBlock_self : (w.setBlock bid b).disk bid = b :=
  Function.update_self _ _ _

theorem disk_setBlock_of_ne {m : ℕ} (h : m ≠ bid) : (w.setBlock bid b).disk m = w.disk m :=
  Function.update_of_ne h _ _

@[simp] theorem setBlock_setBlock (b' : Block) :
    (w.setBlock bid b).setBlock bid b' = w.setBlock bid b' := by
  simp [setBlock]

@[simp] theorem setBlock_disk : w.setBlock bid (w.disk bid) = w := by
  simp [setBlock]

end SetBlock

/-! Changes of one inode compose, and commute with stores to blocks: a world is brought to the
form in which the stores come first and each inode changes once. -/

section Edit

variable (w : World) (ino : ℕ) (f g : Inode → Inode)

@[simp] theorem disk_edit : (w.edit ino f).disk = w.disk := rfl
@[simp] theorem disk_touch : (w.touch ino f).disk = w.disk := rfl
@[simp] theorem sb_edit : (w.edit ino f).sb = w.sb := rfl
@[simp] theorem sb_touch : (w.touch ino f).sb = w.sb := rfl
@[simp] theorem nblk_edit : (w.edit ino f).nblk = w.nblk := rfl
@[simp] theorem nblk_touch : (w.touch ino f).nblk = w.nblk := rfl
@[simp] theorem io_edit : (w.edit ino f).io = w.io := rfl
@[simp] theorem io_touch : (w.touch ino f).io = w.io := rfl
@[simp] theorem now_edit : (w.edit ino f).now = w.now := rfl
@[simp] theorem now_touch : (w.touch ino f).now = w.now := rfl
@[simp] theorem opens_edit : (w.edit ino f).opens = w.opens := rfl
@[simp] theorem opens_touch : (w.touch ino f).opens = w.opens := rfl

theorem icache_edit (m : ℕ) : (w.edit ino f).icache m =
    if m = ino then (w.icache ino).map fun c => { c with inode := f c.inode }
    else w.icache m := by
  split
  · subst m; exact icache_setCore_self _ _ _
  · exact icache_setCore_of_ne _ _ _ ‹_›

theorem icache_touch (m : ℕ) : (w.touch ino f).icache m =
    if m = ino then (w.icache ino).map fun c => { c with inode := f c.inode, dirty := true }
    else w.icache m := by
  split
  · subst m; exact icache_setCore_self _ _ _
  · exact icache_setCore_of_ne _ _ _ ‹_›

theorem inode?_edit (m : ℕ) :
    (w.edit ino f).inode? m = if m = ino then (w.inode? ino).map f else w.inode? m := by
  by_cases hm : m = ino
  · subst hm
    rw [if_pos rfl, inode?, inode?, icache_edit, if_pos rfl]
    rcases w.icache m with - | ⟨i, d, - | -⟩ <;> rfl
  · rw [if_neg hm, inode?, inode?, icache_edit, if_neg hm]

theorem inode?_touch (m : ℕ) :
    (w.touch ino f).inode? m = if m = ino then (w.inode? ino).map f else w.inode? m := by
  by_cases hm : m = ino
  · subst hm
    rw [if_pos rfl, inode?, inode?, icache_touch, if_pos rfl]
    rcases w.icache m with - | ⟨i, d, - | -⟩ <;> rfl
  · rw [if_neg hm, inode?, inode?, icache_touch, if_neg hm]

@[simp] theorem inode?_setBlock (bid : ℕ) (b : Block) (m : ℕ) :
    (w.setBlock bid b).inode? m = w.inode? m := rfl

@[simp] theorem edit_edit : (w.edit ino f).edit ino g = w.edit ino fun i => g (f i) := by
  rw [edit, icache_edit, if_pos rfl]
  simp only [edit, setCore_setCore, Option.map_map]
  rfl

@[simp] theorem touch_edit : (w.edit ino f).touch ino g = w.touch ino fun i => g (f i) := by
  rw [touch, icache_edit, if_pos rfl]
  simp only [edit, touch, setCore_setCore, Option.map_map]
  rfl

@[simp] theorem touch_touch : (w.touch ino f).touch ino g = w.touch ino fun i => g (f i) := by
  rw [touch, icache_touch, if_pos rfl]
  simp only [touch, setCore_setCore, Option.map_map]
  rfl

@[simp] theorem edit_touch : (w.touch ino f).edit ino g = w.touch ino fun i => g (f i) := by
  rw [edit, icache_touch, if_pos rfl]
  simp only [touch, setCore_setCore, Option.map_map]
  rfl

@[simp] theorem touch_setCore (c : InCore) :
    (w.setCore ino (some c)).touch ino f = w.setCore ino (some ⟨f c.inode, true, c.isNew⟩) := by
  simp only [touch, icache_setCore_self, setCore_setCore, Option.map_some]

@[simp] theorem setBlock_edit (bid : ℕ) (b : Block) :
    (w.edit ino f).setBlock bid b = (w.setBlock bid b).edit ino f := rfl

@[simp] theorem setBlock_touch (bid : ℕ) (b : Block) :
    (w.touch ino f).setBlock bid b = (w.setBlock bid b).touch ino f := rfl

end Edit

end World

section Rules

variable {w : World}

theorem wp_ask {Q : Bool → World → Prop} {E : Fault → Prop} (r : Req) :
    wp (ask r) Q E w ↔ Q (w.io r w.disk) w := Iff.rfl

theorem wp_sb_bread {Q : Bool → World → Prop} {E : Fault → Prop} (site : Site) (bid : ℕ) :
    wp (sb_bread site bid) Q E w ↔ Q (w.readable site bid) w := Iff.rfl

theorem wp_bData {Q : Block → World → Prop} {E : Fault → Prop} (bid : ℕ) :
    wp (bData bid) Q E w ↔ Q (w.disk bid) w := Iff.rfl

theorem wp_modifyBuf {Q : Unit → World → Prop} {E : Fault → Prop} (bid : ℕ) (f : Block → Block) :
    wp (modifyBuf bid f) Q E w ↔ Q () (w.setBlock bid (f (w.disk bid))) := Iff.rfl

theorem wp_assert {Q : Unit → World → Prop} {E : Fault → Prop} (c : Bool) :
    wp (assert c) Q E w ↔ (c = true → Q () w) ∧ (c = false → E .panic) := by
  cases c <;> simp [assert]

theorem wp_modifyInode {Q : Unit → World → Prop} {E : Fault → Prop} (ino : ℕ)
    (f : Inode → Inode) : wp (modifyInode ino f) Q E w ↔ Q () (w.edit ino f) := Iff.rfl

theorem wp_mark_inode_dirty {Q : Unit → World → Prop} {E : Fault → Prop} (ino : ℕ) :
    wp (mark_inode_dirty ino) Q E w ↔ Q () (w.touch ino id) := Iff.rfl

theorem wp_current_time {Q : ℤ → World → Prop} {E : Fault → Prop} :
    wp current_time Q E w ↔ Q w.now w := Iff.rfl

theorem wp_iblock (i : Inode) {k : ℕ} (hk : k < 8) {Q : UInt32 → World → Prop}
    {E : Fault → Prop} : wp (iblock i k) Q E w ↔ Q (i.blk k) w := by
  rw [iblock, dif_pos hk, Inode.blk_of_lt i hk, wp_pure]

theorem wp_iblock_of_le (i : Inode) {k : ℕ} (hk : 8 ≤ k) {Q : UInt32 → World → Prop}
    {E : Fault → Prop} : wp (iblock i k) Q E w ↔ E .outOfBounds := by
  rw [iblock, dif_neg (Nat.not_lt.2 hk), wp_throw]

theorem wp_setIblock (ino : ℕ) {k : ℕ} (hk : k < 8) (dno : UInt32) {Q : Unit → World → Prop}
    {E : Fault → Prop} :
    wp (setIblock ino k dno) Q E w ↔ Q () (w.edit ino fun i => i.setBlk k dno) := by
  have hset : (fun i : Inode => { i with i_block := Function.update i.i_block ⟨k, hk⟩ dno }) =
      fun i => i.setBlk k dno := by
    funext i
    simp only [Inode.setBlk, Inode.mk.injEq, true_and]
    funext j
    simp only [Function.update_apply, Fin.ext_iff]
  rw [setIblock, dif_pos hk, wp_modifyInode, hset]

theorem wp_unlock_new_inode {Q : Unit → World → Prop} {E : Fault → Prop} (ino : ℕ) :
    wp (unlock_new_inode ino) Q E w ↔
      Q () (w.setCore ino ((w.icache ino).map fun c => { c with isNew := false })) := Iff.rfl

theorem run_getInode {ino : ℕ} {i : Inode} (h : w.inode? ino = some i) :
    (getInode ino).run w = .ok (i, w) := by
  rw [getInode, StateT.run_bind]
  change (match w.inode? ino with
    | some i => pure i
    | none => throw .stale : Driver Inode).run w = _
  rw [h]
  rfl

theorem wp_getInode_of_none {ino : ℕ} (h : w.inode? ino = none)
    {Q : Inode → World → Prop} {E : Fault → Prop} : wp (getInode ino) Q E w ↔ E .stale := by
  simp only [getInode, wp_bind, wp_get, h, wp_throw]

theorem wp_getInode {ino : ℕ} {i : Inode} (h : w.inode? ino = some i)
    {Q : Inode → World → Prop} {E : Fault → Prop} : wp (getInode ino) Q E w ↔ Q i w := by
  simp only [getInode, wp_bind, wp_get, h, wp_pure]

end Rules

end Yaf
