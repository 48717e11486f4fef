/-
**Listing a directory** (`driver/dir.c`).

`yaf_iterate_shared` hands the live slots of a directory to a sink, one `dir_emit` each.  A sink
is described by the number of entries it still takes; a refusal is logged and the loop goes on.

Main definitions:

* `Yaf.DirContext` — `struct dir_context`: a position, and the sink with what it took so far;
* `Yaf.yaf_iterate_shared` — one `getdents` call.
-/

import Yaf.Dentry

set_option relaxedAutoImplicit false
set_option autoImplicit false

namespace Yaf

open Prog

/-- What a sink is given: a name and an inode number. -/
structure DirEntry where
  name : List UInt8
  ino : ℕ
  deriving DecidableEq

/-- `struct dir_context`.  `room` is how many entries the sink still takes, `none` when there is
no bound, and `out` what it took. -/
structure DirContext where
  pos : ℕ
  room : Option ℕ
  out : List DirEntry

/-- `dir_emit`: whether the entry was taken. -/
def dir_emit (ctx : DirContext) (e : DirEntry) : Bool × DirContext :=
  match ctx.room with
  | some 0 => (false, ctx)
  | some (n + 1) => (true, { ctx with room := some n, out := ctx.out ++ [e] })
  | none => (true, { ctx with out := ctx.out ++ [e] })

/-- `dir_emit_dots`: the entries `.` and `..`, as far as they were not emitted before. -/
def dir_emit_dots (ctx : DirContext) (dir parent : ℕ) : Bool × DirContext :=
  let dot (ctx : DirContext) : Bool × DirContext :=
    if ctx.pos = 0 then
      match dir_emit ctx ⟨[46], dir⟩ with
      | (true, ctx) => (true, { ctx with pos := 1 })
      | (false, ctx) => (false, ctx)
    else (true, ctx)
  match dot ctx with
  | (false, ctx) => (false, ctx)
  | (true, ctx) =>
      if ctx.pos = 1 then
        match dir_emit ctx ⟨[46, 46], parent⟩ with
        | (true, ctx) => (true, { ctx with pos := 2 })
        | (false, ctx) => (false, ctx)
      else (true, ctx)

/-- The name a slot emits: `d_name_len` bytes from `d_name` on. -/
def emittedName (b : Block) (yd : ℕ) : List UInt8 :=
  (List.range (d_name_len b yd).toNat).map (d_name b yd)

/-- The `for` loop over the slots of a block, `rem` of them from the dentry at byte `yd`. -/
def iterSlots (size : ℕ) (b : Block) : ℕ → ℕ → ℕ → DirContext → ℕ × DirContext
  | 0, _, doff, ctx => (doff, ctx)
  | rem + 1, yd, doff, ctx =>
      if doff < size then
        let ctx :=
          if d_ino b yd ≠ RESERVED_INO then
            (dir_emit ctx ⟨emittedName b yd, (d_ino b yd).toNat⟩).2
          else ctx
        iterSlots size b rem (yd + YAF_DENTRY_SIZE) (doff + YAF_DENTRY_SIZE) ctx
      else (doff, ctx)

/-- The `while` loop over the blocks.  The slot counter starts at the slot of `doff`, the dentry
pointer at the first dentry of the block.  The offset is `none` after a failed read. -/
def iterDir (dir : Inode) : ℕ → ℕ → DirContext → Driver (Option ℕ × DirContext)
  | 0, doff, ctx => if doff < dir.i_size then throw .outOfBounds else pure (some doff, ctx)
  | rem + 1, doff, ctx =>
      if doff < dir.i_size then do
        let sb := (← get).sb
        let bid := DNO2BID sb (← iblock dir (doff / YAF_BLOCK_SIZE)).toNat
        if ← sb_bread .scan bid then
          let i := doff % YAF_BLOCK_SIZE / YAF_DENTRY_SIZE
          let (doff, ctx) :=
            iterSlots dir.i_size (← bData bid) (DENTRYS_PER_BLOCK - i) 0 doff ctx
          iterDir dir rem doff ctx
        else pure (none, ctx)
      else pure (some doff, ctx)

/-- `yaf_iterate_shared`: the return code, and the context it leaves. -/
def yaf_iterate_shared (dir parent : ℕ) (ctx : DirContext) : Driver (ℤ × DirContext) := do
  let di ← getInode dir
  if S_ISDIR di.i_mode then
    match dir_emit_dots ctx dir parent with
    | (false, ctx) => pure (0, ctx)
    | (true, ctx) =>
        -- `doff` is zero for `ctx->pos == 2` in both branches of the source
        let doff := ctx.pos - 2
        if doff % YAF_DENTRY_SIZE ≠ 0 then pure (-ENOENT, ctx)
        else do
          match ← iterDir di YAF_IBLOCKS doff ctx with
          | (some doff, ctx) => pure (0, { ctx with pos := doff + 2 })
          | (none, ctx) => pure (- EIO, ctx)
  else pure (-ENOTDIR, ctx)

end Yaf
