/-
**The driver over a buffer cache.**

`Yaf.World` has one copy of each block, so that `brelse` and `mark_buffer_dirty` have no counterpart
there.  Here the functions of the driver are code over buffers: `sb_bread` gets a reference to the
buffer of a block, a store through `b_data` changes that buffer only, `mark_buffer_dirty` has it
written back some time, and `brelse` gives the reference up.  Before each of these the kernel may
write buffers back, and drop those that are clean and not referred to.  A buffer that was dropped
and is still pointed to must not be used: that is a fault of its own.

What does not look at blocks is run on the world that is shown.  These are the buffers of the block
device: those of the superblock, of the bitmaps, of inodes and of directories.  What a file holds
does not pass through them, and is left to `Yaf.Caches`.

Main definitions:

* `Yaf.Buffered`, `Yaf.Keeper` — a mount with a buffer cache, and programs over it;
* `Yaf.Buffered.view` — the world that is shown: each block as its buffer has it, if there is one;
* `Yaf.Buffered.yaf_get_free_dblock`, … — the functions of the driver with their buffers;
* `Yaf.Buffered.synced` — the device after the dirty buffers were written back.
-/

import Yaf.Vfs
import Yaf.Dir
import Yaf.Lib.Store
import Yaf.Lib.Layer

set_option relaxedAutoImplicit false
set_option autoImplicit false

namespace Yaf

open Prog

/-! ### Buffers -/

/-- **A mount with a buffer cache.**  The `disk` of the world is the device, `bufs` are the buffers
of its blocks, and `plan` is what the kernel does with them before the next accesses. -/
structure Buffered where
  world : World
  bufs : ℕ → Option (Store.Copy Block)
  plan : List (List (Store.Act ℕ))

/-- The ways to stop: those of the driver, and the use of a buffer that was dropped. -/
inductive Halt where
  | fault (e : Fault)
  | dangling
  deriving DecidableEq

/-- Driver code over buffers. -/
abbrev Keeper (α : Type) : Type := Prog Halt Buffered α

namespace Buffered

/-- The device and the buffers. -/
def store (c : Buffered) : Store ℕ Block := ⟨c.world.disk, c.bufs, c.plan⟩

def setStore (c : Buffered) (s : Store ℕ Block) : Buffered :=
  ⟨{ c.world with disk := s.medium }, s.copies, s.plan⟩

/-- **The world that is shown.** -/
def view (c : Buffered) : World := { c.world with disk := c.store.shown }

/-- Another world over the same device. -/
def setView (c : Buffered) (w : World) : Buffered :=
  { c with world := { w with disk := c.world.disk } }

/-- Accesses to buffers. -/
def onStore {α : Type} (x : Store.Code ℕ Block α) : Keeper α :=
  zoom store setStore (fun _ => .dangling) x

/-- Code that does not change blocks. -/
def onView {α : Type} (x : Driver α) : Keeper α := zoom view setView .fault x

/-- `sb_bread`: whether the buffer of a block could be had; if so there is a reference to it. -/
def sb_bread (site : Site) (bid : ℕ) : Keeper Bool := do
  if ← onView (Yaf.sb_bread site bid) then
    onStore (Store.acquire bid)
    pure true
  else pure false

/-- The contents of a buffer. -/
def bData (bid : ℕ) : Keeper Block := onStore (Store.read bid)

/-- A store through `b_data`. -/
def modifyBuf (bid : ℕ) (f : Block → Block) : Keeper Unit := onStore (Store.write bid f)

def mark_buffer_dirty (bid : ℕ) : Keeper Unit := onStore (Store.mark bid)

def brelse (bid : ℕ) : Keeper Unit := onStore (Store.release bid)

/-! ### The bitmaps -/

/-- `assert(test_and_clear_bit(nr, addr))`. -/
def yaf_put_bit (bid nr : ℕ) : Keeper Unit := do
  let b ← bData bid
  modifyBuf bid fun b => Mem.clearBit b nr
  onView (assert (Mem.testBit b nr))

/-- The loop over the blocks of a bitmap section; `finish` is what happens to the buffer of the
block the search ended in. -/
def getFreeIdx (min : ℕ) (noRead full : UInt32) (finish : ℕ → Keeper Unit) :
    ℕ → ℕ → Keeper UInt32
  | 0, _ => pure full
  | rem + 1, bid => do
      if ← sb_bread .bitmap bid then
        let (r, b) := yaf_get_free_bit (← bData bid) BITS_PER_BLOCK
        modifyBuf bid fun _ => b
        let res : UInt32 := UInt32.ofInt r
        if res ≥ 0 then do
          finish bid
          pure (UInt32.ofNat (res.toNat + (bid - min) * BITS_PER_BLOCK))
        else do
          brelse bid
          getFreeIdx min noRead full finish rem (bid + 1)
      else pure noRead

/-- Releasing an index whose bit lies in block `bid`. -/
def putIdx (bid idx : ℕ) : Keeper Unit := do
  let bh ← sb_bread .bitmap bid
  onView (assert bh)
  yaf_put_bit bid (idx % BITS_PER_BLOCK)
  mark_buffer_dirty bid
  brelse bid

def yaf_get_free_inode : Keeper UInt32 := do
  let sb := (← get).world.sb
  getFreeIdx (BID_IBP_MIN sb) RESERVED_INO RESERVED_INO
    (fun bid => do
      mark_buffer_dirty bid
      brelse bid)
    sb.nr_ibp (BID_IBP_MIN sb)

def yaf_put_inode (ino : ℕ) : Keeper Unit := do
  let sb := (← get).world.sb
  putIdx (IDXI2BID sb ino) ino

/-- `yaf_get_free_dblock` gives its buffer up before it marks it dirty. -/
def yaf_get_free_dblock : Keeper UInt32 := do
  let sb := (← get).world.sb
  getFreeIdx (BID_DBP_MIN sb) RESERVED_INO RESERVED_DNO
    (fun bid => do
      brelse bid
      mark_buffer_dirty bid)
    sb.nr_dbp (BID_DBP_MIN sb)

def yaf_put_dblock (dno : UInt32) : Keeper Unit := do
  let sb := (← get).world.sb
  putIdx (IDXD2BID sb dno.toNat) dno.toNat

/-! ### Inodes -/

def yaf_iget (ino : ℕ) : Keeper ℤ := do
  let sb := (← get).world.sb
  if ino ≥ sb.nr_i * INODES_PER_BLOCK then pure (-EINVAL)
  else do
    if ← onView (iget_locked ino) then
      if ← sb_bread .inode (INO2BID sb ino) then
        let yi := Yaf_Inode.read (← bData (INO2BID sb ino))
          (YAF_INODE_SIZE * (ino % INODES_PER_BLOCK))
        onView (modifyInode ino fun _ => yi.toMem)
        onView (unlock_new_inode ino)
        brelse (INO2BID sb ino)
        pure 0
      else pure (- EIO)
    else pure (-ENOMEM)

def yaf_write_inode (ino : ℕ) : Keeper ℤ := do
  let sb := (← get).world.sb
  let inode ← onView (getInode ino)
  if ← sb_bread .inode (INO2BID sb ino) then
    modifyBuf (INO2BID sb ino) fun b => Yaf_Inode.writeSlot b (INO2BOFF sb ino) inode.toDisk
    mark_buffer_dirty (INO2BID sb ino)
    brelse (INO2BID sb ino)
    pure 0
  else pure (- EIO)

def yaf_new_inode (dir : ℕ) (mode : UInt16) : Keeper (Except ℤ ℕ) := do
  let ino ← yaf_get_free_inode
  if ino = RESERVED_INO then pure (.error (-ENOSPC))
  else do
    let ret ← yaf_iget ino.toNat
    if ret < 0 then do
      yaf_put_inode ino.toNat
      pure (.error ret)
    else do
      onView (initInode dir ino.toNat mode)
      pure (.ok ino.toNat)

/-! ### Directories -/

/-- The `while` loop over the blocks of a directory.  The buffer of a block is given up when a slot
is found in it, and at the end of each pass. -/
def scanDir (hit : Block → ℕ → Bool) (dir : Inode) : ℕ → ℕ → Keeper Scan
  | 0, doff => if doff < dir.i_size then throw (.fault .outOfBounds) else pure (.done doff)
  | rem + 1, doff =>
      if doff < dir.i_size then do
        let sb := (← get).world.sb
        let bid := DNO2BID sb (← onView (iblock dir (doff / YAF_BLOCK_SIZE))).toNat
        if ← sb_bread .scan bid then
          let b ← bData bid
          brelse bid
          match scanSlots hit dir.i_size b DENTRYS_PER_BLOCK 0 doff with
          | .inl doff => pure (.found doff)
          | .inr doff => scanDir hit dir rem doff
        else pure .noRead
      else pure (.done doff)

def attachDentryBlock (dir doff : ℕ) : Keeper Bool := do
  let dno ← yaf_get_free_dblock
  if dno = RESERVED_DNO then pure false
  else do
    let old ← onView (iblock (← onView (getInode dir)) (doff / YAF_BLOCK_SIZE))
    onView (assert (old == RESERVED_DNO))
    onView (setIblock dir (doff / YAF_BLOCK_SIZE) dno)
    pure true

/-- The last part of `yaf_get_free_dentry`. -/
def appendDentry (dir doff : ℕ) : Keeper ℤ := do
  let sb := (← get).world.sb
  let bid := DNO2BID sb (← onView (iblock (← onView (getInode dir)) (doff / YAF_BLOCK_SIZE))).toNat
  let bh ← sb_bread .dentry bid
  onView (assert bh)
  modifyBuf bid fun b => Mem.wr32 b (doff % YAF_BLOCK_SIZE) RESERVED_INO
  mark_buffer_dirty bid
  brelse bid
  onView (modifyInode dir fun i => { i with i_size := doff + YAF_DENTRY_SIZE })
  let cur ← onView current_time
  onView (modifyInode dir fun i => i.setTimes cur)
  onView (mark_inode_dirty dir)
  pure doff

def yaf_get_free_dentry (dir : ℕ) : Keeper ℤ := do
  let di ← onView (getInode dir)
  match ← scanDir isFree di YAF_IBLOCKS 0 with
  | .noRead => pure (- EIO)
  | .found doff => pure doff
  | .done doff =>
      if di.i_size / YAF_DENTRY_SIZE = MAX_DENTRYS then pure (-ENOSPC)
      else if di.i_size % YAF_BLOCK_SIZE = 0 then do
        if ← attachDentryBlock dir doff then appendDentry dir doff else pure (-ENOSPC)
      else appendDentry dir doff

def _yaf_lookup (dir : ℕ) (q : Qstr) : Keeper ℤ := do
  if q.len > YAF_DENTRY_NAME_LEN then pure (-ENAMETOOLONG)
  else do
    let di ← onView (getInode dir)
    match ← scanDir (isNamed q) di YAF_IBLOCKS 0 with
    | .noRead => pure (- EIO)
    | .found doff => pure doff
    | .done _ => pure (-ENOENT)

/-- The part of `_yaf_create` after the slot was found.  The buffer of the slot is kept while the
inode is made. -/
def linkDentry (dir : ℕ) (q : Qstr) (mode : UInt16) (doff : ℕ) : Keeper (ℤ × Option ℕ) := do
  let sb := (← get).world.sb
  let bid := DNO2BID sb (← onView (iblock (← onView (getInode dir)) (doff / YAF_BLOCK_SIZE))).toNat
  if ← sb_bread .dentry bid then
    match ← yaf_new_inode dir mode with
    | .error e => do
        brelse bid
        pure (e, none)
    | .ok ino => do
        modifyBuf bid fun b => fillDentry b (doff % YAF_BLOCK_SIZE) (UInt32.ofNat ino) q
        mark_buffer_dirty bid
        brelse bid
        let cur ← onView current_time
        onView (modifyInode dir fun i => i.setTimes cur)
        onView (modifyInode dir fun i => { i with i_nlink := i.i_nlink + 1 })
        onView (mark_inode_dirty dir)
        pure (0, some ino)
  else pure (- EIO, none)

def _yaf_create (dir : ℕ) (q : Qstr) (mode : UInt16) : Keeper (ℤ × Option ℕ) := do
  if q.len > YAF_DENTRY_NAME_LEN then pure (-ENAMETOOLONG, none)
  else do
    let doff : ℕ := ((← yaf_get_free_dentry dir) % 2 ^ 64).toNat
    linkDentry dir q mode doff

def yaf_mkdir (dir : ℕ) (q : Qstr) (mode : UInt16) : Keeper (ℤ × Option ℕ) :=
  _yaf_create dir q (mode ||| S_IFDIR)

def yaf_create (dir : ℕ) (q : Qstr) (mode : UInt16) : Keeper (ℤ × Option ℕ) :=
  _yaf_create dir q (mode ||| S_IFREG)

/-- The buffer of the slot is kept while the inode is read. -/
def yaf_lookup (dir : ℕ) (q : Qstr) : Keeper ℤ := do
  let doff ← _yaf_lookup dir q
  if doff < 0 then
    if doff = -ENOENT then onView (lookupOut dir) else pure doff
  else do
    let sb := (← get).world.sb
    let bid := DNO2BID sb
      (← onView (iblock (← onView (getInode dir)) (doff.toNat / YAF_BLOCK_SIZE))).toNat
    if ← sb_bread .dentry bid then
      let ret ← yaf_iget (d_ino (← bData bid) (doff.toNat % YAF_BLOCK_SIZE)).toNat
      brelse bid
      if ret < 0 then pure ret else onView (lookupOut dir)
    else pure (- EIO)

/-- The loop of `yaf_delete` over the blocks of the deleted inode. -/
def putBlocks (inode : Inode) : ℕ → ℕ → Keeper Unit
  | 0, k =>
      if k * YAF_BLOCK_SIZE < inode.i_size then throw (.fault .outOfBounds) else pure ()
  | rem + 1, k =>
      if k * YAF_BLOCK_SIZE < inode.i_size then do
        yaf_put_dblock (← onView (iblock inode k))
        putBlocks inode rem (k + 1)
      else pure ()

/-- The part of `yaf_delete` after the dentry was found at `doff`. -/
def unlinkDentry (dir ino doff : ℕ) : Keeper ℤ := do
  let sb := (← get).world.sb
  let bid := DNO2BID sb (← onView (iblock (← onView (getInode dir)) (doff / YAF_BLOCK_SIZE))).toNat
  if ← sb_bread .dentry bid then
    modifyBuf bid fun b => Mem.wr32 b (doff % YAF_BLOCK_SIZE) RESERVED_INO
    mark_buffer_dirty bid
    brelse bid
    let cur ← onView current_time
    onView (modifyInode dir fun i => i.setTimes cur)
    onView (modifyInode dir fun i => { i with i_nlink := i.i_nlink - 1 })
    onView (mark_inode_dirty dir)
    onView (modifyInode ino fun i => { i with i_nlink := i.i_nlink - 1 })
    let inode ← onView (getInode ino)
    if inode.i_nlink > 1 then do
      onView (mark_inode_dirty ino)
      pure 0
    else do
      putBlocks inode YAF_IBLOCKS 0
      yaf_put_inode ino
      onView (mark_inode_dirty ino)
      pure 0
  else pure (- EIO)

def yaf_delete (dir : ℕ) (q : Qstr) (ino : ℕ) : Keeper ℤ := do
  let doff ← _yaf_lookup dir q
  onView (assert (decide (doff ≥ 0)))
  unlinkDentry dir ino doff.toNat

def yaf_rmdir (dir : ℕ) (q : Qstr) (ino : ℕ) : Keeper ℤ := do
  if (← onView (getInode ino)).i_nlink > 1 then pure (-ENOTEMPTY) else yaf_delete dir q ino

def yaf_unlink (dir : ℕ) (q : Qstr) (ino : ℕ) : Keeper ℤ := yaf_delete dir q ino

/-- The loop of `yaf_iterate_shared` over the blocks. -/
def iterDir (dir : Inode) : ℕ → ℕ → DirContext → Keeper (Option ℕ × DirContext)
  | 0, doff, ctx =>
      if doff < dir.i_size then throw (.fault .outOfBounds) else pure (some doff, ctx)
  | rem + 1, doff, ctx =>
      if doff < dir.i_size then do
        let sb := (← get).world.sb
        let bid := DNO2BID sb (← onView (iblock dir (doff / YAF_BLOCK_SIZE))).toNat
        if ← sb_bread .scan bid then
          let b ← bData bid
          brelse bid
          let i := doff % YAF_BLOCK_SIZE / YAF_DENTRY_SIZE
          let (doff, ctx) := iterSlots dir.i_size b (DENTRYS_PER_BLOCK - i) 0 doff ctx
          iterDir dir rem doff ctx
        else pure (none, ctx)
      else pure (some doff, ctx)

def yaf_iterate_shared (dir parent : ℕ) (ctx : DirContext) : Keeper (ℤ × DirContext) := do
  let di ← onView (getInode dir)
  if S_ISDIR di.i_mode then
    match dir_emit_dots ctx dir parent with
    | (false, ctx) => pure (0, ctx)
    | (true, ctx) =>
        let doff := ctx.pos - 2
        if doff % YAF_DENTRY_SIZE ≠ 0 then pure (-ENOENT, ctx)
        else do
          match ← iterDir di YAF_IBLOCKS doff ctx with
          | (some doff, ctx) => pure (0, { ctx with pos := doff + 2 })
          | (none, ctx) => pure (- EIO, ctx)
  else pure (-ENOTDIR, ctx)

/-! ### Files -/

def allocBlocks (ino : ℕ) : ℕ → ℕ → Keeper Bool
  | 0, _ => pure true
  | rem + 1, dbnr => do
      let dno ← yaf_get_free_dblock
      if dno = RESERVED_DNO then do
        onView (mark_inode_dirty ino)
        pure false
      else do
        onView (setIblock ino dbnr dno)
        allocBlocks ino rem (dbnr + 1)

def yaf_get_block (ino iblk : ℕ) (create : Bool) : Keeper (ℤ × Option ℕ) := do
  let sb := (← get).world.sb
  if iblk ≥ YAF_IBLOCKS then pure (-EFBIG, none)
  else do
    let dbnr := countAssigned (← onView (getInode ino)) YAF_IBLOCKS 0
    if iblk ≥ dbnr then
      if create then
        if ← allocBlocks ino (iblk + 1 - dbnr) dbnr then do
          onView (mark_inode_dirty ino)
          pure (0, some (DNO2BID sb (← onView (iblock (← onView (getInode ino)) iblk)).toNat))
        else pure (-ENOSPC, none)
      else pure (0, none)
    else pure (0, some (DNO2BID sb (← onView (iblock (← onView (getInode ino)) iblk)).toNat))

/-! ### Mounting, and the callers of the driver -/

/-- The part of `yaf_fill_super` in which the buffer of the superblock is kept. -/
def fillSuper (b : Block) : Keeper ℤ := do
  if magicOk b then
    if ← onView (ask .kzalloc) then do
      onView (modify fun w => { w with sb := ⟨(Mem.rd32 b 0).toNat, (Mem.rd32 b 4).toNat,
        (Mem.rd32 b 8).toNat, (Mem.rd32 b 12).toNat⟩ })
      let ret ← yaf_iget ROOT_INO
      if ret < 0 then pure ret
      else if ← onView (ask .d_make_root) then pure 0 else pure (-ENOMEM)
    else pure (-ENOMEM)
  else pure (-EINVAL)

/-- `yaf_fill_super`. -/
def yaf_fill_super : Keeper ℤ := do
  if ← sb_bread .superblock 0 then
    let ret ← fillSuper (← bData 0)
    brelse 0
    pure ret
  else pure (- EIO)

def remove (op : Keeper ℤ) (ino : ℕ) : Keeper ℤ := do
  let ret ← op
  if ret = 0 then onView (iput ino)
  pure ret

def writeback (ino : ℕ) : Keeper ℤ := do
  onView (modify fun w =>
    w.setCore ino ((w.icache ino).map fun c => { c with dirty := false }))
  yaf_write_inode ino

/-- A device that is not mounted, without buffers. -/
def device (w : World) (plan : List (List (Store.Act ℕ))) : Buffered := ⟨w, fun _ => none, plan⟩

/-- No buffer is referred to. -/
def Released (c : Buffered) : Prop := ∀ bid b, c.bufs bid = some b → b.refs = 0

/-- The device after the dirty buffers were written back (`sync_blockdev`). -/
def synced (c : Buffered) : Disk := c.store.settled

end Buffered

end Yaf
