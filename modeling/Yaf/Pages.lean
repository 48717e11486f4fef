/-
**Files through the page cache** (the `address_space_operations` of `driver/file.c`).

`Yaf.File` stores a piece of a write in its block at once.  The kernel stores it in a page, which
reaches the device later: the driver is asked to read pages ahead (`yaf_readahead`), to prepare and
to finish a write (`yaf_write_begin`, `yaf_write_end`), and to write a page back
(`yaf_writepage`).  A page is as large as a block, so it has one buffer.  Pages that are clean may
be dropped at any time, and an inode that leaves the inode cache takes its pages along.

The driver does not say how to read a single page (`read_folio` is left out of `yaf_as_ops`), so a
page that is there and not up to date cannot be read.

A block has one copy here besides the pages, as in `Yaf.World`.  In the kernel a page is transferred
to and from the device, while what the driver reads and changes itself is in buffers of the block
device; `Yaf.Caches` keeps these apart, and `Yaf.Aliasing` says when that is the same.

Main definitions:

* `Yaf.Page`, `Yaf.Paged`, `Yaf.Pager` — pages, a mount with a page cache, and programs over it;
* `Yaf.Paged.yaf_readahead`, `Yaf.Paged.yaf_write_begin`, `Yaf.Paged.yaf_write_end`,
  `Yaf.Paged.yaf_writepage` — what the driver does with pages;
* `Yaf.Paged.vfs_write`, `Yaf.Paged.vfs_read` — the kernel around them;
* `Yaf.Event`, `Yaf.Paged.step` — what can happen.
-/

import Yaf.Simulation
import Yaf.Lib.Layer

set_option relaxedAutoImplicit false
set_option autoImplicit false

namespace Yaf

open Prog

/-! ### Pages -/

/-- A page of a file in memory, with the buffer it has. -/
structure Page where
  data : Block
  /-- `PG_uptodate` -/
  uptodate : Bool
  /-- the block the buffer is mapped to, if it is -/
  bh : Option ℕ
  /-- `BH_Uptodate` of the buffer -/
  read : Bool
  /-- `BH_Dirty` of the buffer -/
  dirty : Bool

/-- A page that was added and not filled in. -/
def Page.blank : Page := ⟨fun _ => 0, false, none, false, false⟩

/-- **A mount with a page cache**: the pages of a file by their index. -/
structure Paged where
  world : World
  pages : ℕ → ℕ → Option Page

/-- The ways in which the kernel stops. -/
inductive Oops where
  | fault (e : Fault)
  /-- a call of `read_folio`, which the driver does not have -/
  | null
  deriving DecidableEq

abbrev Pager (α : Type) : Type := Prog Oops Paged α

/-- Code that does not look at pages. -/
def onWorld {α : Type} (x : Driver α) : Pager α :=
  zoom Paged.world (fun c w => { c with world := w }) Oops.fault x

namespace Paged

def setPage (c : Paged) (ino idx : ℕ) (p : Option Page) : Paged :=
  { c with pages := fun n k => if n = ino ∧ k = idx then p else c.pages n k }

/-- The page with an index, or one that is added. -/
def grab (c : Paged) (ino idx : ℕ) : Page := (c.pages ino idx).getD Page.blank

/-- Whether a page waits to be written back. -/
def dirty (c : Paged) (ino idx : ℕ) : Bool := (c.pages ino idx).any Page.dirty

/-- The inodes that are not in memory have no pages (`truncate_inode_pages_final`). -/
def truncate (c : Paged) : Paged :=
  { c with pages := fun n k => if (c.world.icache n).isSome then c.pages n k else none }

def putPage (ino idx : ℕ) (p : Page) : Pager Unit := modify fun c => c.setPage ino idx (some p)

/-! ### Reading -/

/-- `yaf_readahead`: `mpage_readahead` for one page that is not there.  No page behind the end of
the file is read ahead. -/
def yaf_readahead (ino idx : ℕ) : Pager Unit := do
  if ((← get).pages ino idx).isNone then
    if idx * YAF_BLOCK_SIZE < (← onWorld (getInode ino)).i_size then
      match ← onWorld (yaf_get_block ino idx false) with
      | (ret, some bid) =>
          if ret < 0 then putPage ino idx .blank
          else if ← onWorld (sb_bread .page bid) then
            putPage ino idx { Page.blank with data := ← onWorld (bData bid), uptodate := true }
          else putPage ino idx .blank
      | (ret, none) =>
          if ret < 0 then putPage ino idx .blank
          else putPage ino idx { Page.blank with uptodate := true }

/-- `generic_file_read_iter` for one byte. -/
def vfs_read (ino off : ℕ) : Pager (Except ℤ (Option UInt8)) := do
  if off < (← onWorld (getInode ino)).i_size then
    yaf_readahead ino (off / YAF_BLOCK_SIZE)
    match (← get).pages ino (off / YAF_BLOCK_SIZE) with
    | some p =>
        if p.uptodate then pure (.ok (some (p.data (off % YAF_BLOCK_SIZE)))) else throw .null
    | none => throw .null
  else pure (.ok none)

/-! ### Writing -/

/-- The block of the buffer of a page: `yaf_get_block` is asked when it is not mapped. -/
def get_block (ino idx : ℕ) (p : Page) : Pager (ℤ × Option ℕ) :=
  match p.bh with
  | some bid => pure (0, some bid)
  | none => onWorld (yaf_get_block ino idx true)

/-- `block_write_begin`: the page is found or added, its buffer is mapped, and read when neither
the page nor the buffer is up to date and the write will leave some of it. -/
def block_write_begin (ino pos len : ℕ) : Pager ℤ := do
  let idx := pos / YAF_BLOCK_SIZE
  let p := (← get).grab ino idx
  match ← get_block ino idx p with
  | (ret, none) => do
      putPage ino idx p
      pure ret
  | (_, some bid) =>
      if p.uptodate then do
        putPage ino idx { p with bh := some bid, read := true }
        pure 0
      else if p.read || (pos % YAF_BLOCK_SIZE == 0 && len == YAF_BLOCK_SIZE) then do
        putPage ino idx { p with bh := some bid }
        pure 0
      else if ← onWorld (sb_bread .page bid) then do
        putPage ino idx { p with bh := some bid, data := ← onWorld (bData bid), read := true }
        pure 0
      else do
        putPage ino idx { p with bh := some bid }
        pure (- EIO)

/-- `yaf_write_begin`. -/
def yaf_write_begin (ino pos len : ℕ) : Pager ℤ :=
  if pos + len > MAX_FILESIZE then pure (-ENOSPC) else block_write_begin ino pos len

/-- The copy from user memory into the page. -/
def copy_page_from_iter (ino pos : ℕ) (data : List UInt8) : Pager Unit := do
  let idx := pos / YAF_BLOCK_SIZE
  let p := (← get).grab ino idx
  putPage ino idx { p with data := storeBytes p.data (pos % YAF_BLOCK_SIZE) data }

/-- `block_write_end`: a copy that fell short does not count in a page that is not up to date.  The
part from the beginning of the copy to its end is committed; when this part is empty and at the
beginning of the buffer, the buffer is left alone. -/
def block_write_end (ino pos len copied : ℕ) : Pager ℕ := do
  let idx := pos / YAF_BLOCK_SIZE
  let p := (← get).grab ino idx
  let copied := if copied < len && !p.uptodate then 0 else copied
  if pos % YAF_BLOCK_SIZE + copied = 0 then
    putPage ino idx { p with uptodate := p.uptodate || p.read }
  else
    putPage ino idx { p with uptodate := true, read := true, dirty := true }
  pure copied

/-- `generic_write_end`. -/
def generic_write_end (ino pos len copied : ℕ) : Pager ℕ := do
  let copied ← block_write_end ino pos len copied
  if pos + copied > (← onWorld (getInode ino)).i_size then do
    onWorld (modifyInode ino fun i => { i with i_size := pos + copied })
    onWorld (mark_inode_dirty ino)
  pure copied

/-- `yaf_write_end`. -/
def yaf_write_end (ino pos len copied : ℕ) : Pager ℤ := do
  let ret ← generic_write_end ino pos len copied
  if ret < len then pure ret
  else do
    let cur ← onWorld current_time
    onWorld (modifyInode ino fun i => { i with i_ctime := cur })
    onWorld (modifyInode ino fun i => { i with i_mtime := cur })
    onWorld (mark_inode_dirty ino)
    pure ret

/-- One round of `generic_perform_write`: what it returns is the `status`. -/
def write_round (ino pos : ℕ) (data : List UInt8) (copied : ℕ) : Pager ℤ := do
  let ret ← yaf_write_begin ino pos data.length
  if ret < 0 then pure ret
  else do
    copy_page_from_iter ino pos (data.take copied)
    yaf_write_end ino pos data.length copied

/-- One piece of a `write`.  When a copy that fell short was refused, as many bytes as were copied
are written again. -/
def vfs_write (ino pos : ℕ) (data : List UInt8) (copied : ℕ) : Pager ℤ := do
  let status ← write_round ino pos data copied
  if status = 0 ∧ copied ≠ 0 then write_round ino pos (data.take copied) copied else pure status

/-- The bytes of a page, with zeros from `size` on. -/
def zero_segment (b : Block) (size : ℕ) : List UInt8 :=
  (List.range YAF_BLOCK_SIZE).map fun x => if x < size then b x else 0

/-- `__block_write_full_folio`: a buffer that is dirty and not mapped is mapped first.  A device
that cannot take the block leaves a buffer that is not up to date. -/
def block_write_full_folio (ino idx : ℕ) (p : Page) (bytes : List UInt8) : Pager ℤ := do
  match ← get_block ino idx p with
  | (ret, none) => pure ret
  | (_, some bid) => do
      if bid < (← get).world.nblk then
        onWorld (modifyBuf bid fun b => storeBytes b 0 bytes)
        putPage ino idx { p with data := fun x => bytes.getD x 0, bh := some bid, dirty := false }
      else
        putPage ino idx { p with data := fun x => bytes.getD x 0, bh := some bid, dirty := false
                                 read := false }
      pure 0

/-- `yaf_writepage`: `block_write_full_page` for a dirty page.  What is behind the end of the file
is zeroed, and a page that lies behind it is left alone. -/
def yaf_writepage (ino idx : ℕ) : Pager ℤ := do
  let size := (← onWorld (getInode ino)).i_size
  let p := (← get).grab ino idx
  if idx < size / YAF_BLOCK_SIZE then
    block_write_full_folio ino idx p (zero_segment p.data YAF_BLOCK_SIZE)
  else if idx ≥ size / YAF_BLOCK_SIZE + 1 ∨ size % YAF_BLOCK_SIZE = 0 then pure 0
  else block_write_full_folio ino idx p (zero_segment p.data (size % YAF_BLOCK_SIZE))

end Paged

/-! ### What can happen -/

/-- What the VFS does with a mount, or the kernel on its own. -/
inductive Event where
  | call (op : Op)
  | read (ino off : ℕ)
  | readahead (ino idx : ℕ)
  | writepage (ino idx : ℕ)
  | reclaim (ino idx : ℕ)

/-- What is returned. -/
inductive Answer where
  | reply (r : Reply)
  | byte (x : Except ℤ (Option UInt8))
  | code (ret : ℤ)
  | done
  deriving DecidableEq

namespace Paged

/-- An operation: writes go through the page cache, and an inode that leaves the inode cache takes
its pages along. -/
def call : Op → Pager Reply
  | .write ino pos data copied => do pure (← vfs_write ino pos data copied, none)
  | op => do
      let r ← onWorld (Yaf.step op)
      modify truncate
      pure r

/-- **What an event does.** -/
def step : Event → Pager Answer
  | .call op => do pure (.reply (← call op))
  | .read ino off => do pure (.byte (← vfs_read ino off))
  | .readahead ino idx => do
      yaf_readahead ino idx
      pure .done
  | .writepage ino idx => do pure (.code (← yaf_writepage ino idx))
  | .reclaim ino idx => do
      modify fun c => c.setPage ino idx none
      pure .done

end Paged

/-- Whether a write would find its block behind the end of the device. -/
def Op.overruns (w : World) (op : Op) : Bool := decide (value (step op) w = .ok (- EIO, none))

/-- Whether the kernel is ready for an operation: an inode that has pages to be written back is not
evicted, and a piece of a write brings something. -/
def Op.ready (c : Paged) : Op → Bool
  | .evict ino => (List.range YAF_IBLOCKS).all fun k => !c.dirty ino k
  | .write _ _ _ copied => decide (0 < copied)
  | _ => true

/-- **When an event can happen.**  Pages are written back when they are dirty, and dropped when
they are not. -/
def Event.Ok (c : Paged) : Event → Prop
  | .call op => op.Careful c.world ∧ op.overruns c.world = false ∧ op.ready c = true
  | .read ino _ | .readahead ino _ => c.world.holds S_ISREG ino = true
  | .writepage ino idx => c.dirty ino idx = true
  | .reclaim ino idx => c.dirty ino idx = false

instance (c : Paged) (e : Event) : Decidable (e.Ok c) := by
  cases e <;> unfold Event.Ok <;> infer_instance

end Yaf
