/-
**Pages of files and buffers of the block device.**

The kernel has two kinds of copies of a block.  What the driver reads and changes itself is in the
buffer that `sb_bread` gets, one of the block device.  What a file holds is in a page of the file,
and a page is transferred to and from the device, not to and from a buffer of the block device.
Nothing keeps two copies of one block the same, and the driver, which neither marks a buffer as new
nor forgets one when its block is released, does not see to it that there is only one.  A block of a
directory that was removed may have a buffer when a file gets the block.  So the model stops where a
page is transferred to or from a block that has a buffer: what is on the device later depends on
which of the two is written back last.

Main definitions:

* `Yaf.Cached`, `Yaf.Cacher` — a mount with both kinds of copies, and programs over it;
* `Yaf.Cached.unaliased` — the transfer of a page;
* `Yaf.Cached.yaf_readahead`, `Yaf.Cached.yaf_write_begin`, … — files through their pages;
* `Yaf.Cached.yaf_kill_sb`, `Yaf.Cached.yaf_mount` — unmounting and mounting;
* `Yaf.Cached.event`, `Yaf.Cached.step` — what can happen.
-/

import Yaf.Buffers
import Yaf.Sessions

set_option relaxedAutoImplicit false
set_option autoImplicit false

namespace Yaf

open Prog

/-! ### Both kinds of copies -/

/-- **A mount with buffers of the block device and pages of files.** -/
structure Cached where
  buffered : Buffered
  pages : ℕ → ℕ → Option Page

/-- The ways to stop. -/
inductive Stop where
  | oops (e : Oops)
  /-- the use of a buffer that was dropped -/
  | dangling
  /-- the transfer of a page to or from a block that has a buffer -/
  | aliased (bid : ℕ)
  deriving DecidableEq

def Stop.ofHalt : Halt → Stop
  | .fault e => .oops (.fault e)
  | .dangling => .dangling

abbrev Cacher (α : Type) : Type := Prog Stop Cached α

/-- Code that does not look at pages. -/
def onBuffers {α : Type} (x : Keeper α) : Cacher α :=
  zoom Cached.buffered (fun c b => { c with buffered := b }) .ofHalt x

namespace Cached

/-- Code that looks neither at pages nor at blocks. -/
def onView {α : Type} (x : Driver α) : Cacher α := onBuffers (Buffered.onView x)

/-- **What is shown** of the blocks, and the pages. -/
def view (c : Cached) : Paged := ⟨c.buffered.view, c.pages⟩

def setPage (c : Cached) (ino idx : ℕ) (p : Option Page) : Cached :=
  { c with pages := fun n k => if n = ino ∧ k = idx then p else c.pages n k }

/-- The page with an index, or one that is added. -/
def grab (c : Cached) (ino idx : ℕ) : Page := (c.pages ino idx).getD Page.blank

/-- The inodes that are not in memory have no pages. -/
def truncate (c : Cached) : Cached :=
  { c with pages := fun n k =>
      if (c.buffered.world.icache n).isSome then c.pages n k else none }

def putPage (ino idx : ℕ) (p : Page) : Cacher Unit := modify fun c => c.setPage ino idx (some p)

/-- **The block on the device**, for a page that is transferred.  The kernel may drop the buffer of
the block before that. -/
def unaliased (bid : ℕ) : Cacher Block := do
  onBuffers (Buffered.onStore Store.tick)
  let c ← get
  if (c.buffered.bufs bid).isSome then throw (.aliased bid) else pure (c.buffered.world.disk bid)

/-- The bytes of a page are written to a block. -/
def submit_write (bid : ℕ) (bytes : List UInt8) : Cacher Unit := do
  let b ← unaliased bid
  modify fun c => { c with buffered := { c.buffered with
    world := c.buffered.world.setBlock bid (storeBytes b 0 bytes) } }

/-! ### Reading -/

/-- `yaf_readahead`. -/
def yaf_readahead (ino idx : ℕ) : Cacher Unit := do
  if ((← get).pages ino idx).isNone then
    if idx * YAF_BLOCK_SIZE < (← onView (getInode ino)).i_size then
      match ← onBuffers (Buffered.yaf_get_block ino idx false) with
      | (ret, some bid) =>
          if ret < 0 then putPage ino idx .blank
          else if ← onView (sb_bread .page bid) then
            putPage ino idx { Page.blank with data := ← unaliased bid, uptodate := true }
          else putPage ino idx .blank
      | (ret, none) =>
          if ret < 0 then putPage ino idx .blank
          else putPage ino idx { Page.blank with uptodate := true }

/-- `generic_file_read_iter` for one byte. -/
def vfs_read (ino off : ℕ) : Cacher (Except ℤ (Option UInt8)) := do
  if off < (← onView (getInode ino)).i_size then
    yaf_readahead ino (off / YAF_BLOCK_SIZE)
    match (← get).pages ino (off / YAF_BLOCK_SIZE) with
    | some p =>
        if p.uptodate then pure (.ok (some (p.data (off % YAF_BLOCK_SIZE)))) else throw (.oops .null)
    | none => throw (.oops .null)
  else pure (.ok none)

/-! ### Writing -/

/-- The block of the buffer of a page. -/
def get_block (ino idx : ℕ) (p : Page) : Cacher (ℤ × Option ℕ) :=
  match p.bh with
  | some bid => pure (0, some bid)
  | none => onBuffers (Buffered.yaf_get_block ino idx true)

/-- `block_write_begin`. -/
def block_write_begin (ino pos len : ℕ) : Cacher ℤ := do
  let idx := pos / YAF_BLOCK_SIZE
  let p := (← get).grab ino idx
  match ← get_block ino idx p with
  | (ret, none) => do
      putPage ino idx p
      pure ret
  | (_, some bid) =>
      if p.uptodate then do
        putPage ino idx { p with bh := some bid, read := true }
        pure 0
      else if p.read || (pos % YAF_BLOCK_SIZE == 0 && len == YAF_BLOCK_SIZE) then do
        putPage ino idx { p with bh := some bid }
        pure 0
      else if ← onView (sb_bread .page bid) then do
        putPage ino idx { p with bh := some bid, data := ← unaliased bid, read := true }
        pure 0
      else do
        putPage ino idx { p with bh := some bid }
        pure (- EIO)

/-- `yaf_write_begin`. -/
def yaf_write_begin (ino pos len : ℕ) : Cacher ℤ :=
  if pos + len > MAX_FILESIZE then pure (-ENOSPC) else block_write_begin ino pos len

/-- The copy from user memory into the page. -/
def copy_page_from_iter (ino pos : ℕ) (data : List UInt8) : Cacher Unit := do
  let idx := pos / YAF_BLOCK_SIZE
  let p := (← get).grab ino idx
  putPage ino idx { p with data := storeBytes p.data (pos % YAF_BLOCK_SIZE) data }

/-- `block_write_end`. -/
def block_write_end (ino pos len copied : ℕ) : Cacher ℕ := do
  let idx := pos / YAF_BLOCK_SIZE
  let p := (← get).grab ino idx
  let copied := if copied < len && !p.uptodate then 0 else copied
  if pos % YAF_BLOCK_SIZE + copied = 0 then
    putPage ino idx { p with uptodate := p.uptodate || p.read }
  else
    putPage ino idx { p with uptodate := true, read := true, dirty := true }
  pure copied

/-- `generic_write_end`. -/
def generic_write_end (ino pos len copied : ℕ) : Cacher ℕ := do
  let copied ← block_write_end ino pos len copied
  if pos + copied > (← onView (getInode ino)).i_size then do
    onView (modifyInode ino fun i => { i with i_size := pos + copied })
    onView (mark_inode_dirty ino)
  pure copied

/-- `yaf_write_end`. -/
def yaf_write_end (ino pos len copied : ℕ) : Cacher ℤ := do
  let ret ← generic_write_end ino pos len copied
  if ret < len then pure ret
  else do
    let cur ← onView current_time
    onView (modifyInode ino fun i => { i with i_ctime := cur })
    onView (modifyInode ino fun i => { i with i_mtime := cur })
    onView (mark_inode_dirty ino)
    pure ret

/-- One round of `generic_perform_write`. -/
def write_round (ino pos : ℕ) (data : List UInt8) (copied : ℕ) : Cacher ℤ := do
  let ret ← yaf_write_begin ino pos data.length
  if ret < 0 then pure ret
  else do
    copy_page_from_iter ino pos (data.take copied)
    yaf_write_end ino pos data.length copied

/-- One piece of a `write`, which is made again when a copy that fell short was refused. -/
def vfs_write (ino pos : ℕ) (data : List UInt8) (copied : ℕ) : Cacher ℤ := do
  let status ← write_round ino pos data copied
  if status = 0 ∧ copied ≠ 0 then write_round ino pos (data.take copied) copied else pure status

/-- `__block_write_full_folio`. -/
def block_write_full_folio (ino idx : ℕ) (p : Page) (bytes : List UInt8) : Cacher ℤ := do
  match ← get_block ino idx p with
  | (ret, none) => pure ret
  | (_, some bid) => do
      if bid < (← get).buffered.world.nblk then
        submit_write bid bytes
        putPage ino idx { p with data := fun x => bytes.getD x 0, bh := some bid, dirty := false }
      else
        putPage ino idx { p with data := fun x => bytes.getD x 0, bh := some bid, dirty := false
                                 read := false }
      pure 0

/-- `yaf_writepage`. -/
def yaf_writepage (ino idx : ℕ) : Cacher ℤ := do
  let size := (← onView (getInode ino)).i_size
  let p := (← get).grab ino idx
  if idx < size / YAF_BLOCK_SIZE then
    block_write_full_folio ino idx p (Paged.zero_segment p.data YAF_BLOCK_SIZE)
  else if idx ≥ size / YAF_BLOCK_SIZE + 1 ∨ size % YAF_BLOCK_SIZE = 0 then pure 0
  else block_write_full_folio ino idx p (Paged.zero_segment p.data (size % YAF_BLOCK_SIZE))

/-! ### What can happen -/

/-- An operation that is no write. -/
def settle {α : Type} (x : Keeper α) : Cacher α := do
  let r ← onBuffers x
  modify truncate
  pure r

/-- An operation. -/
def call : Op → Cacher Reply
  | .write ino pos data copied => do pure (← vfs_write ino pos data copied, none)
  | .lookup dir q => settle do pure (← Buffered.yaf_lookup dir q, none)
  | .create dir q mode => settle (Buffered.yaf_create dir q mode)
  | .mkdir dir q mode => settle (Buffered.yaf_mkdir dir q mode)
  | .unlink dir q ino => settle do
      pure (← Buffered.remove (Buffered.yaf_unlink dir q ino) ino, none)
  | .rmdir dir q ino => settle do
      pure (← Buffered.remove (Buffered.yaf_rmdir dir q ino) ino, none)
  | .writeInode ino => settle do pure (← Buffered.writeback ino, none)
  -- these do not look at blocks
  | op => settle (Buffered.onView (Yaf.step op))

/-- **What an event does.** -/
def event : Event → Cacher Answer
  | .call op => do pure (.reply (← call op))
  | .read ino off => do pure (.byte (← vfs_read ino off))
  | .readahead ino idx => do
      yaf_readahead ino idx
      pure .done
  | .writepage ino idx => do pure (.code (← yaf_writepage ino idx))
  | .reclaim ino idx => do
      modify fun c => c.setPage ino idx none
      pure .done

/-! ### Many mounts -/

end Cached

namespace Buffered

/-- Writing back the modified ones among `rem` inodes, from number `n` on. -/
def syncFrom : ℕ → ℕ → Keeper Unit
  | 0, _ => pure ()
  | rem + 1, n => do
      match (← get).world.icache n with
      | some c =>
          if c.dirty then
            let _ ← writeback n
      | none => pure ()
      syncFrom rem (n + 1)

/-- A device that is not mounted any more: the dirty buffers are written back, and nothing stays in
memory. -/
def unmounted (c : Buffered) : Buffered :=
  ⟨{ c.world.unmounted with disk := c.synced }, fun _ => none, c.plan⟩

end Buffered

namespace Cached

/-- Writing the dirty ones of the given pages back. -/
def syncPages : List (ℕ × ℕ) → Cacher Unit
  | [] => pure ()
  | (ino, idx) :: l => do
      if ((← get).pages ino idx).any Page.dirty then
        let _ ← yaf_writepage ino idx
      syncPages l

/-- `yaf_kill_sb`: after the pages and the inodes the buffers are written back, and all of them
leave the memory. -/
def yaf_kill_sb : Cacher Unit := do
  let c ← get
  syncPages (c.view.inodes.product (List.range YAF_IBLOCKS))
  onBuffers (Buffered.syncFrom (c.buffered.world.sb.nr_i * INODES_PER_BLOCK) 0)
  modify fun c => ⟨c.buffered.unmounted, fun _ _ => none⟩

/-- A device that is not mounted, with nothing in memory. -/
def device (w : World) (plan : List (List (Store.Act ℕ))) : Cached :=
  ⟨Buffered.device w plan, fun _ _ => none⟩

/-- `yaf_mount`. -/
def yaf_mount : Cacher ℤ := onBuffers Buffered.yaf_fill_super

/-- **What happens to a volume** over many mounts. -/
def step : Act → Cacher Answer
  | .event e => event e
  | .remount => do
      yaf_kill_sb
      pure (.reply (← yaf_mount, none))

end Cached

end Yaf
