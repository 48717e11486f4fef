/-
**Directory operations** (`driver/inode.c`).

A directory is an array of 32-byte slots, spread over the blocks of its `i_block` array and cut
off at `i_size`.  A slot is free when its `d_ino` is `RESERVED_INO`.

The scans of `yaf_get_free_dentry` and `_yaf_lookup` are the same two nested loops with another
test for a slot, so both are `Yaf.scanDir` with their own test.  Offsets are `int64_t` where they
may carry a negative error code, and `_yaf_create` keeps the one it gets in a `uint64_t`.

Main definitions:

* `Yaf.scanSlots`, `Yaf.scanDir` — the inner and the outer loop of a scan;
* `Yaf.yaf_get_free_dentry`, `Yaf._yaf_lookup` — the two scans;
* `Yaf._yaf_create`, `Yaf.yaf_mkdir`, `Yaf.yaf_create`, `Yaf.yaf_lookup`, `Yaf.yaf_delete`,
  `Yaf.yaf_rmdir`, `Yaf.yaf_unlink` — the inode operations.
-/

import Yaf.View

set_option relaxedAutoImplicit false
set_option autoImplicit false

namespace Yaf

open Prog

/-! ### Names and slots -/

/-- A name as the VFS hands it over (`struct qstr`): non-empty, without NUL bytes. -/
structure Qstr where
  name : List UInt8
  ne_nil : name ≠ []
  nul_free : (0 : UInt8) ∉ name

namespace Qstr

def len (q : Qstr) : ℕ := q.name.length

/-- The NUL-terminated string. -/
def ptr (q : Qstr) : ℕ → UInt8 := fun i => q.name.getD i 0

end Qstr

/-- `yd->d_ino` of the slot at byte `yd` of a block. -/
def d_ino (b : Block) (yd : ℕ) : UInt32 := Mem.rd32 b yd

def d_name_len (b : Block) (yd : ℕ) : UInt32 := Mem.rd32 b (yd + 4)

def d_name (b : Block) (yd : ℕ) : ℕ → UInt8 := fun i => b (yd + 8 + i)

/-- What `_yaf_create` stores in a slot. -/
def fillDentry (b : Block) (yd : ℕ) (ino : UInt32) (q : Qstr) : Block :=
  Mem.strncpy (Mem.wr32 (Mem.wr32 b yd ino) (yd + 4) (UInt32.ofNat q.len)) (yd + 8) q.ptr
    YAF_DENTRY_NAME_LEN

/-! ### Scans -/

/-- The `for` loop over the slots of a block: `rem` slots are left, the next one is at byte `yd`
of the block and at `doff` of the directory.  `inl` is a hit, `inr` where the loop ended. -/
def scanSlots (hit : Block → ℕ → Bool) (size : ℕ) (b : Block) : ℕ → ℕ → ℕ → ℕ ⊕ ℕ
  | 0, _, doff => .inr doff
  | rem + 1, yd, doff =>
      if doff < size then
        if hit b yd then .inl doff
        else scanSlots hit size b rem (yd + YAF_DENTRY_SIZE) (doff + YAF_DENTRY_SIZE)
      else .inr doff

/-- How a scan ends. -/
inductive Scan where
  | found (doff : ℕ)
  | noRead
  | done (doff : ℕ)

/-- The `while` loop over the blocks of a directory.  Every pass ends at the next block boundary,
so after eight of them the next access to `i_block` is past the array. -/
def scanDir (hit : Block → ℕ → Bool) (dir : Inode) : ℕ → ℕ → Driver Scan
  | 0, doff => if doff < dir.i_size then throw .outOfBounds else pure (.done doff)
  | rem + 1, doff =>
      if doff < dir.i_size then do
        let sb := (← get).sb
        let bid := DNO2BID sb (← iblock dir (doff / YAF_BLOCK_SIZE)).toNat
        if ← sb_bread .scan bid then
          match scanSlots hit dir.i_size (← bData bid) DENTRYS_PER_BLOCK 0 doff with
          | .inl doff => pure (.found doff)
          | .inr doff => scanDir hit dir rem doff
        else pure .noRead
      else pure (.done doff)

def isFree (b : Block) (yd : ℕ) : Bool := d_ino b yd == RESERVED_INO

def isNamed (q : Qstr) (b : Block) (yd : ℕ) : Bool :=
  d_ino b yd != RESERVED_INO && Mem.strncmp (d_name b yd) q.ptr YAF_DENTRY_NAME_LEN == 0

/-- Attach a fresh data block to a directory whose size is block-aligned; `false` when there is
none. -/
def attachDentryBlock (dir doff : ℕ) : Driver Bool := do
  let dno ← yaf_get_free_dblock
  if dno = RESERVED_DNO then pure false
  else do
    let old ← iblock (← getInode dir) (doff / YAF_BLOCK_SIZE)
    assert (old == RESERVED_DNO)
    setIblock dir (doff / YAF_BLOCK_SIZE) dno
    pure true

/-- The last part of `yaf_get_free_dentry`: append a free slot at `doff`. -/
def appendDentry (dir doff : ℕ) : Driver ℤ := do
  let sb := (← get).sb
  let bid := DNO2BID sb (← iblock (← getInode dir) (doff / YAF_BLOCK_SIZE)).toNat
  let bh ← sb_bread .dentry bid
  assert bh
  modifyBuf bid fun b => Mem.wr32 b (doff % YAF_BLOCK_SIZE) RESERVED_INO
  modifyInode dir fun i => { i with i_size := doff + YAF_DENTRY_SIZE }
  let cur ← current_time
  modifyInode dir fun i => i.setTimes cur
  mark_inode_dirty dir
  pure doff

/-- Find an available slot and return its offset, or a negative error. -/
def yaf_get_free_dentry (dir : ℕ) : Driver ℤ := do
  let di ← getInode dir
  match ← scanDir isFree di YAF_IBLOCKS 0 with
  | .noRead => pure (- EIO)
  | .found doff => pure doff
  | .done doff =>
      if di.i_size / YAF_DENTRY_SIZE = MAX_DENTRYS then pure (-ENOSPC)
      else if di.i_size % YAF_BLOCK_SIZE = 0 then do
        if ← attachDentryBlock dir doff then appendDentry dir doff else pure (-ENOSPC)
      else appendDentry dir doff

/-- The offset of the slot with the given name, or a negative error. -/
def _yaf_lookup (dir : ℕ) (q : Qstr) : Driver ℤ := do
  if q.len > YAF_DENTRY_NAME_LEN then pure (-ENAMETOOLONG)
  else do
    let di ← getInode dir
    match ← scanDir (isNamed q) di YAF_IBLOCKS 0 with
    | .noRead => pure (- EIO)
    | .found doff => pure doff
    | .done _ => pure (-ENOENT)

/-! ### Operations -/

/-- The part of `_yaf_create` after the slot was found.  `doff` is a `uint64_t`.  The result is
the return code, and the number of the inode the dentry was instantiated with. -/
def linkDentry (dir : ℕ) (q : Qstr) (mode : UInt16) (doff : ℕ) : Driver (ℤ × Option ℕ) := do
  let sb := (← get).sb
  let bid := DNO2BID sb (← iblock (← getInode dir) (doff / YAF_BLOCK_SIZE)).toNat
  if ← sb_bread .dentry bid then
    match ← yaf_new_inode dir mode with
    | .error e => pure (e, none)
    | .ok ino => do
        modifyBuf bid fun b => fillDentry b (doff % YAF_BLOCK_SIZE) (UInt32.ofNat ino) q
        let cur ← current_time
        modifyInode dir fun i => i.setTimes cur
        modifyInode dir fun i => { i with i_nlink := i.i_nlink + 1 }
        mark_inode_dirty dir
        pure (0, some ino)
  else pure (- EIO, none)

/-- Create a file or directory. -/
def _yaf_create (dir : ℕ) (q : Qstr) (mode : UInt16) : Driver (ℤ × Option ℕ) := do
  if q.len > YAF_DENTRY_NAME_LEN then pure (-ENAMETOOLONG, none)
  else do
    -- an error code becomes a huge offset, and `doff < 0` never holds of it
    let doff : ℕ := ((← yaf_get_free_dentry dir) % 2 ^ 64).toNat
    linkDentry dir q mode doff

def yaf_mkdir (dir : ℕ) (q : Qstr) (mode : UInt16) : Driver (ℤ × Option ℕ) :=
  _yaf_create dir q (mode ||| S_IFDIR)

def yaf_create (dir : ℕ) (q : Qstr) (mode : UInt16) : Driver (ℤ × Option ℕ) :=
  _yaf_create dir q (mode ||| S_IFREG)

/-- The end of `yaf_lookup`: a new access time, and `d_add`. -/
def lookupOut (dir : ℕ) : Driver ℤ := do
  let cur ← current_time
  modifyInode dir fun i => { i with i_atime := cur }
  mark_inode_dirty dir
  pure 0

/-- Look a name up and read its inode: `0`, or the error of the returned pointer. -/
def yaf_lookup (dir : ℕ) (q : Qstr) : Driver ℤ := do
  let doff ← _yaf_lookup dir q
  if doff < 0 then
    if doff = -ENOENT then lookupOut dir else pure doff
  else do
    let sb := (← get).sb
    let bid := DNO2BID sb (← iblock (← getInode dir) (doff.toNat / YAF_BLOCK_SIZE)).toNat
    if ← sb_bread .dentry bid then
      let ret ← yaf_iget (d_ino (← bData bid) (doff.toNat % YAF_BLOCK_SIZE)).toNat
      if ret < 0 then pure ret else lookupOut dir
    else pure (- EIO)

/-- The loop of `yaf_delete` over the blocks of the deleted inode, from entry `k` on. -/
def putBlocks (inode : Inode) : ℕ → ℕ → Driver Unit
  | 0, k => if k * YAF_BLOCK_SIZE < inode.i_size then throw .outOfBounds else pure ()
  | rem + 1, k =>
      if k * YAF_BLOCK_SIZE < inode.i_size then do
        yaf_put_dblock (← iblock inode k)
        putBlocks inode rem (k + 1)
      else pure ()

/-- The part of `yaf_delete` after the dentry was found at `doff`. -/
def unlinkDentry (dir ino doff : ℕ) : Driver ℤ := do
  let sb := (← get).sb
  let bid := DNO2BID sb (← iblock (← getInode dir) (doff / YAF_BLOCK_SIZE)).toNat
  if ← sb_bread .dentry bid then
    modifyBuf bid fun b => Mem.wr32 b (doff % YAF_BLOCK_SIZE) RESERVED_INO
    let cur ← current_time
    modifyInode dir fun i => i.setTimes cur
    modifyInode dir fun i => { i with i_nlink := i.i_nlink - 1 }
    mark_inode_dirty dir
    modifyInode ino fun i => { i with i_nlink := i.i_nlink - 1 }
    let inode ← getInode ino
    if inode.i_nlink > 1 then do
      mark_inode_dirty ino
      pure 0
    else do
      putBlocks inode YAF_IBLOCKS 0
      yaf_put_inode ino
      mark_inode_dirty ino
      pure 0
  else pure (- EIO)

/-- Delete the entry `q` of `dir`, whose inode is `ino`. -/
def yaf_delete (dir : ℕ) (q : Qstr) (ino : ℕ) : Driver ℤ := do
  let doff ← _yaf_lookup dir q
  assert (decide (doff ≥ 0))
  unlinkDentry dir ino doff.toNat

def yaf_rmdir (dir : ℕ) (q : Qstr) (ino : ℕ) : Driver ℤ := do
  if (← getInode ino).i_nlink > 1 then pure (-ENOTEMPTY) else yaf_delete dir q ino

def yaf_unlink (dir : ℕ) (q : Qstr) (ino : ℕ) : Driver ℤ := yaf_delete dir q ino

/-! ### Scans -/

/-- The slots of one block, as a search among the slots `j, j + 1, …` of the directory. -/
theorem scanSlots_eq {hit : Block → ℕ → Bool} {m : ℕ} {b : Block} {p : ℕ → Bool} (rem i j : ℕ)
    (hp : ∀ t < rem, hit b (32 * (i + t)) = p (j + t)) :
    scanSlots hit (32 * m) b rem (32 * i) (32 * j) =
      match (List.range' j (min rem (m - j))).find? p with
      | some s => .inl (32 * s)
      | none => .inr (32 * (j + min rem (m - j))) := by
  induction rem generalizing i j with
  | zero => simp [scanSlots]
  | succ rem ih =>
      have hd : YAF_DENTRY_SIZE = 32 := rfl
      have hp₀ := hp 0 (by omega)
      rw [Nat.add_zero, Nat.add_zero] at hp₀
      rcases Nat.lt_or_ge j m with hj | hj
      · have hmin : min (rem + 1) (m - j) = min rem (m - (j + 1)) + 1 := by omega
        rw [scanSlots, if_pos (by omega), hp₀, hmin, List.range'_succ, List.find?_cons]
        cases h : p j with
        | true => rfl
        | false =>
            have hnext := ih (i + 1) (j + 1) fun t ht => by
              have := hp (t + 1) (by omega)
              rwa [show i + (t + 1) = i + 1 + t by omega, show j + (t + 1) = j + 1 + t by omega]
                at this
            have hcnt : j + (min rem (m - (j + 1)) + 1) = j + 1 + min rem (m - (j + 1)) := by omega
            rw [hd, show 32 * i + 32 = 32 * (i + 1) by omega,
              show 32 * j + 32 = 32 * (j + 1) by omega, hcnt]
            exact hnext
      · have hmin : min (rem + 1) (m - j) = 0 := by omega
        rw [scanSlots, if_neg (by omega), hmin]
        rfl

section Scan

variable {w : World}

/-- A scan changes nothing. -/
theorem wp_scanDir_of_forall {hit : Block → ℕ → Bool} {i : Inode} {Q : Scan → World → Prop}
    {E : Fault → Prop} (hQ : ∀ r, Q r w) (hE : ∀ e, E e) (rem doff : ℕ) :
    wp (scanDir hit i rem doff) Q E w := by
  induction rem generalizing doff with
  | zero =>
      rw [scanDir]
      split
      · exact hE _
      · exact hQ _
  | succ rem ih =>
      rw [scanDir]
      split
      · rw [wp_bind, wp_get, wp_bind]
        rcases Nat.lt_or_ge (doff / YAF_BLOCK_SIZE) 8 with hk | hk
        · rw [wp_iblock _ hk, wp_bind, wp_sb_bread]
          split
          · rw [wp_bind, wp_bData]
            split
            · exact hQ _
            · exact ih _
          · exact hQ _
        · rw [wp_iblock_of_le _ hk]
          exact hE _
      · exact hQ _

/-- **A scan of a well-shaped directory** finds the first slot that passes the test, unless a
block cannot be read. -/
theorem wp_scanDir {hit : Block → ℕ → Bool} {i : Inode} {m : ℕ} (hs : i.i_size = 32 * m)
    (hm : m ≤ 1024) {Q : Scan → World → Prop} {E : Fault → Prop}
    (hno : (∃ k, k * 128 < m ∧ w.readable .scan (DNO2BID w.sb (i.blk k).toNat) = false) →
      Q .noRead w)
    (hQ : match (List.range m).find? fun j =>
        hit (w.disk (DNO2BID w.sb (i.blk (j / 128)).toNat)) (32 * (j % 128)) with
      | some j => Q (.found (32 * j)) w
      | none => Q (.done i.i_size) w) :
    wp (scanDir hit i YAF_IBLOCKS 0) Q E w := by
  set p : ℕ → Bool := fun j =>
    hit (w.disk (DNO2BID w.sb (i.blk (j / 128)).toNat)) (32 * (j % 128)) with hp
  -- after `k` blocks the scan stands at slot `128 * k`, or at the end of the directory
  have hloop : ∀ rem k, k + rem = 8 →
      (match (List.range' (min (128 * k) m) (m - min (128 * k) m)).find? p with
        | some j => Q (.found (32 * j)) w
        | none => Q (.done i.i_size) w) →
      wp (scanDir hit i rem (32 * min (128 * k) m)) Q E w := by
    intro rem
    induction rem with
    | zero =>
        intro k hk hQ
        have hmin : min (128 * k) m = m := by omega
        rw [hmin, Nat.sub_self, hs] at hQ
        rw [scanDir, hmin, hs, if_neg (by omega)]
        exact hQ
    | succ rem ih =>
        intro k hk hQ
        rcases Nat.lt_or_ge (128 * k) m with hlt | hge
        · have hmin : min (128 * k) m = 128 * k := by omega
          have hdiv : 32 * (128 * k) / YAF_BLOCK_SIZE = k := by rw [YAF_BLOCK_SIZE_eq]; omega
          have hslots := @scanSlots_eq hit m (w.disk (DNO2BID w.sb (i.blk k).toNat)) p 128 0
            (128 * k) fun t ht => by
              have h₁ : (128 * k + t) / 128 = k := by omega
              have h₂ : (128 * k + t) % 128 = t := by omega
              simp only [hp, h₁, h₂, Nat.zero_add]
          have hsplit : List.range' (128 * k) (m - 128 * k) =
              List.range' (128 * k) (min 128 (m - 128 * k)) ++
                List.range' (min (128 * (k + 1)) m) (m - min (128 * (k + 1)) m) := by
            have h₁ : min (128 * (k + 1)) m = 128 * k + min 128 (m - 128 * k) := by omega
            have h₂ : m - 128 * k = min 128 (m - 128 * k) + (m - min (128 * (k + 1)) m) := by omega
            conv_lhs => rw [h₂]
            rw [h₁, ← List.range'_append_1]
          have hend : 128 * k + min 128 (m - 128 * k) = min (128 * (k + 1)) m := by omega
          rw [hmin, hsplit, List.find?_append] at hQ
          rw [scanDir, hmin, hs, if_pos (by omega), hdiv, wp_bind, wp_get, wp_bind,
            wp_iblock i (by omega), wp_bind, wp_sb_bread]
          cases hr : w.readable .scan (DNO2BID w.sb (i.blk k).toNat) with
          | false => exact hno ⟨k, by omega, hr⟩
          | true =>
              rw [if_pos rfl, wp_bind, wp_bData, DENTRYS_PER_BLOCK_eq, ← Nat.mul_zero 32, hslots]
              cases hf : (List.range' (128 * k) (min 128 (m - 128 * k))).find? p with
              | some s =>
                  rw [hf] at hQ
                  exact hQ
              | none =>
                  rw [hf, Option.none_or] at hQ
                  have hnext := ih (k + 1) (by omega) hQ
                  rw [← hend] at hnext
                  exact hnext
        · have hmin : min (128 * k) m = m := by omega
          rw [hmin, Nat.sub_self, hs] at hQ
          rw [scanDir, hmin, hs, if_neg (by omega)]
          exact hQ
  refine hloop 8 0 rfl ?_
  rw [Nat.mul_zero, Nat.zero_min, Nat.sub_zero, ← List.range_eq_range']
  exact hQ

end Scan

/-! ### Creation -/

namespace World

/-- The directory after a slot was appended at `doff`, to a block of which entry `k` of `i_block`
is the number. -/
def append (w : World) (dir doff : ℕ) (dno : UInt32) : World :=
  (w.setBlock (DNO2BID w.sb dno.toNat)
    (Mem.wr32 (w.disk (DNO2BID w.sb dno.toNat)) (doff % 4096) RESERVED_INO)).touch dir
      fun i => ({ i with i_size := doff + 32 } : Inode).setTimes w.now

/-- The fields `yaf_new_inode` sets. -/
def newInode (w : World) (dir : Inode) (mode : UInt16) (old : Inode) : Inode :=
  { inode_init_owner w.fsuid w.fsgid dir mode old with
    i_nlink := 1, i_size := 0, i_atime := w.now, i_mtime := w.now, i_ctime := w.now
    i_block := fun _ => RESERVED_DNO }

/-- The inode `n` as `yaf_new_inode` leaves it. -/
def create (w : World) (n : ℕ) (dir : Inode) (mode : UInt16) : World :=
  (w.markI n true).setCore n (some ⟨w.newInode dir mode (w.slot n).toMem, true, false⟩)

/-- The dentry of the new inode `n`, at byte `off` of block `bid`, and the directory it is in. -/
def link (w : World) (dir bid off n : ℕ) (q : Qstr) : World :=
  (w.setBlock bid (fillDentry (w.disk bid) off (UInt32.ofNat n) q)).touch dir
    fun i => { i.setTimes w.now with i_nlink := i.i_nlink + 1 }

theorem iset_link {w : World} {bid : ℕ} (h : 1 + w.sb.nr_ibp ≤ bid) (dir off n : ℕ) (q : Qstr) :
    (w.link dir bid off n q).view.iset = w.view.iset := by
  rw [link, iset_touch, iset_setBlock _ h]

theorem view_create (w : World) {n : ℕ} (hn : n < w.sb.nr_ibp * 32768) (d : Inode)
    (mode : UInt16) : (w.create n d mode).view =
      (w.view.setI n true).setNode n (w.newInode d mode (w.slot n).toMem).attrs := by
  rw [create, view_setCore _ _ rfl, view_markI w hn]

/-- The directory with a fresh block at entry `k`, not yet dirty. -/
def attach (w : World) (dir k : ℕ) : World := w.takeD.2.edit dir fun i => i.setBlk k w.takeD.1

end World

section Create

variable {w : World} {dir : ℕ} {i : Inode} (hi : w.inode? dir = some i)

include hi

theorem wp_appendDentry {doff : ℕ} (hk : doff / 4096 < 8)
    {Q : ℤ → World → Prop} {E : Fault → Prop} :
    wp (appendDentry dir doff) Q E w ↔
      if w.readable .dentry (DNO2BID w.sb (i.blk (doff / 4096)).toNat) then
        Q doff (w.append dir doff (i.blk (doff / 4096)))
      else E .panic := by
  simp only [appendDentry, wp_bind, wp_get, wp_getInode hi, YAF_BLOCK_SIZE_eq, wp_iblock _ hk,
    wp_sb_bread, wp_assert, wp_modifyBuf, wp_modifyInode, wp_current_time,
    wp_mark_inode_dirty, wp_pure, World.touch_edit, World.now_edit, World.now_setBlock, id]
  cases w.readable .dentry (DNO2BID w.sb (i.blk (doff / 4096)).toNat) with
  | true => simp only [true_implies, Bool.true_eq_false, false_implies, and_true]; rfl
  | false => simp

theorem wp_attachDentryBlock (hok : w.sb.Ok w.nblk) {doff : ℕ} (hk : doff / 4096 < 8)
    {Q : Bool → World → Prop} {E : Fault → Prop} :
    wp (attachDentryBlock dir doff) Q E w ↔
      if i.blk (doff / 4096) = RESERVED_DNO then Q true (w.attach dir (doff / 4096))
      else E .panic := by
  have hi' : w.takeD.2.inode? dir = some i := (World.inode?_takeD _ _).trans hi
  simp only [attachDentryBlock, wp_bind, wp_yaf_get_free_dblock hok.dbp_pos, World.takeD_fst_ne,
    if_false, wp_getInode hi', YAF_BLOCK_SIZE_eq, wp_iblock _ hk, wp_assert, beq_iff_eq,
    beq_eq_false_iff_ne, wp_setIblock _ hk, wp_pure]
  split
  · simp only [*, true_implies, ne_eq, not_true_eq_false, false_implies, and_true]
    rfl
  · simp only [*, false_implies, ne_eq, not_false_eq_true, true_implies, true_and]

end Create

section NewInode

theorem wp_initInode {w : World} {dir ino : ℕ} {d : Inode} (hd : w.inode? dir = some d)
    {mode : UInt16} {Q : Unit → World → Prop} {E : Fault → Prop} :
    wp (initInode dir ino mode) Q E w ↔ Q () (w.touch ino (w.newInode d mode)) := by
  simp only [initInode, wp_bind, wp_get, wp_getInode hd, wp_modifyInode, wp_current_time,
    wp_mark_inode_dirty, World.touch_edit, World.now_edit, id]
  rfl

variable {w : World} (hok : w.sb.Ok w.nblk) {dir : ℕ} {mode : UInt16}

include hok

/-- The bitmap cannot be read. -/
theorem wp_yaf_new_inode_of_noRead (hr : w.readable .bitmap (BID_IBP_MIN w.sb) = false)
    {Q : Except ℤ ℕ → World → Prop} {E : Fault → Prop} :
    wp (yaf_new_inode dir mode) Q E w ↔ Q (.error (-ENOSPC)) w := by
  have htake : w.takeI = (RESERVED_INO, w) := by
    unfold World.takeI
    rw [hr]
    rfl
  simp only [yaf_new_inode, wp_bind, wp_yaf_get_free_inode hok.ibp_pos, htake, if_true, wp_pure]

variable (hr : w.readable .bitmap (BID_IBP_MIN w.sb) = true)

include hr

/-- No inode number is left in the first block of the bitmap: `-ENOENT` is taken for a number,
which is out of range, and released again. -/
theorem wp_yaf_new_inode_of_none (hn : (Mem.clears w.ibit 32768).head? = none)
    {Q : Except ℤ ℕ → World → Prop} {E : Fault → Prop} :
    wp (yaf_new_inode dir mode) Q E w ↔
      if w.readable .bitmap (IDXI2BID w.sb NO_BIT.toNat) = true ∧ w.ibit NO_BIT.toNat = true then
        Q (.error (-EINVAL)) (w.markI NO_BIT.toNat false)
      else E .panic := by
  have hne : NO_BIT ≠ RESERVED_INO := by decide
  have hle : w.sb.nr_i * 64 ≤ NO_BIT.toNat := by
    have h₁ := hok.fits
    have h₂ := hok.nblk_lt
    have h₃ : NO_BIT.toNat = 4294967294 := rfl
    omega
  have hneg : (-EINVAL : ℤ) < 0 := by decide
  have htake : w.takeI = (NO_BIT, w) := by
    unfold World.takeI
    rw [hr, hn]
    rfl
  simp only [yaf_new_inode, wp_bind, wp_yaf_get_free_inode hok.ibp_pos, htake, if_neg hne,
    wp_yaf_iget_of_le hle, if_pos hneg, wp_yaf_put_inode, wp_pure]

variable {n : ℕ} (hn : (Mem.clears w.ibit 32768).head? = some n)

include hn

omit hok in
theorem takeI_of_some : w.takeI = (UInt32.ofNat n, w.markI n true) := by
  unfold World.takeI
  rw [hr, hn]
  rfl

omit hok hr in
/-- Marking a number and releasing it again. -/
theorem markI_markI : (w.markI n true).markI n false = w := by
  obtain ⟨-, hclear⟩ := Mem.mem_clears.1 (List.mem_of_head? hn)
  simp only [World.markI, World.sb_setBlock, World.disk_setBlock_self, cond_true, cond_false,
    World.setBlock_setBlock, Mem.clearBit_setBit hclear, World.setBlock_disk]

omit hok hr hn in
theorem ibit_markI : (w.markI n true).ibit n = true := by
  simp only [World.ibit, World.markI, World.sb_setBlock, World.disk_setBlock_self, cond_true,
    Mem.testBit_setBit, if_true]

omit hok hr in
/-- The number a failed `yaf_iget` leaves is released, and nothing changed. -/
theorem wp_yaf_put_inode_back {Q : Unit → World → Prop} {E : Fault → Prop} :
    wp (yaf_put_inode n) Q E (w.markI n true) ↔
      if (w.markI n true).readable .bitmap (IDXI2BID w.sb n) then Q () w else E .panic := by
  have hsb : (w.markI n true).sb = w.sb := rfl
  rw [wp_yaf_put_inode, ibit_markI, markI_markI hn, hsb]
  simp only [and_true]

/-- Number zero is never handed out. -/
theorem wp_yaf_new_inode_zero (h₀ : n = 0) {Q : Except ℤ ℕ → World → Prop} {E : Fault → Prop} :
    wp (yaf_new_inode dir mode) Q E w ↔ Q (.error (-ENOSPC)) (w.markI 0 true) := by
  subst h₀
  have hz : UInt32.ofNat 0 = RESERVED_INO := rfl
  simp only [yaf_new_inode, wp_bind, wp_yaf_get_free_inode hok.ibp_pos, takeI_of_some hr hn,
    if_pos hz, wp_pure]

variable (h₀ : n ≠ 0)

include h₀

omit hok hr in
theorem ofNat_of_head? : (UInt32.ofNat n).toNat = n ∧ UInt32.ofNat n ≠ RESERVED_INO := by
  obtain ⟨hlt, -⟩ := Mem.mem_clears.1 (List.mem_of_head? hn)
  have hnat : (UInt32.ofNat n).toNat = n := UInt32.toNat_ofNat_of_lt' (by rw [UInt32.size]; omega)
  exact ⟨hnat, fun h => h₀ (by rw [← hnat, h]; rfl)⟩

/-- A number without a slot is released again, and nothing changed. -/
theorem wp_yaf_new_inode_of_le (hle : w.sb.nr_i * 64 ≤ n) {Q : Except ℤ ℕ → World → Prop}
    {E : Fault → Prop} :
    wp (yaf_new_inode dir mode) Q E w ↔
      if (w.markI n true).readable .bitmap (IDXI2BID w.sb n) then Q (.error (-EINVAL)) w
      else E .panic := by
  obtain ⟨hnat, hne⟩ := ofNat_of_head? hn h₀
  have hneg : (-EINVAL : ℤ) < 0 := by decide
  have hle' : (w.markI n true).sb.nr_i * 64 ≤ n := hle
  simp only [yaf_new_inode, wp_bind, wp_yaf_get_free_inode hok.ibp_pos, takeI_of_some hr hn,
    if_neg hne, hnat, wp_yaf_iget_of_le hle', if_pos hneg, wp_yaf_put_inode_back hn, wp_pure]

/-- **A new inode.**  An in-memory inode that could not be filled in stays locked. -/
theorem wp_yaf_new_inode_of_lt (hlt : n < w.sb.nr_i * 64) {d : Inode}
    (hd : ((w.markI n true).load n).inode? dir = some d) {Q : Except ℤ ℕ → World → Prop}
    {E : Fault → Prop} :
    wp (yaf_new_inode dir mode) Q E w ↔
      let w₁ := w.markI n true
      match w.icache n with
      | some c =>
          if c.isNew then E .blocked
          else if w₁.readable .inode (INO2BID w.sb n) then Q (.ok n) (w.create n d mode)
          else if w₁.readable .bitmap (IDXI2BID w.sb n) then Q (.error (- EIO)) w else E .panic
      | none =>
          if w₁.io .iget_locked w₁.disk then
            if w₁.readable .inode (INO2BID w.sb n) then Q (.ok n) (w.create n d mode)
            else if w₁.readable .bitmap (IDXI2BID w.sb n) then Q (.error (- EIO)) (w.lock n)
            else E .panic
          else if w₁.readable .bitmap (IDXI2BID w.sb n) then Q (.error (-ENOMEM)) w
          else E .panic := by
  obtain ⟨hnat, hne⟩ := ofNat_of_head? hn h₀
  have hslot : (w.markI n true).slot n = w.slot n :=
    World.slot_setBlock _ hlt (.inl (by
      have h₁ := (Mem.mem_clears.1 (List.mem_of_head? hn)).1
      have h₂ := hok.ibp_pos
      rw [IDXI2BID_eq]
      omega))
  have hcreate : ((w.markI n true).load n).touch n (((w.markI n true).load n).newInode d mode) =
      w.create n d mode := by
    rw [World.load, World.touch_setCore, hslot]
    rfl
  have hlock : wp (yaf_put_inode n) (fun _ w' => Q (.error (- EIO)) w') E
      ((w.markI n true).lock n) ↔
        if (w.markI n true).readable .bitmap (IDXI2BID w.sb n) then Q (.error (- EIO)) (w.lock n)
        else E .panic := by
    have hrd : ((w.markI n true).lock n).readable .bitmap (IDXI2BID w.sb n) =
        (w.markI n true).readable .bitmap (IDXI2BID w.sb n) := rfl
    have hbit : ((w.markI n true).lock n).ibit n = true := ibit_markI
    have hsb : ((w.markI n true).lock n).sb = w.sb := rfl
    have hback : ((w.markI n true).lock n).markI n false = w.lock n :=
      congrArg (fun w : World => w.lock n) (markI_markI hn)
    rw [wp_yaf_put_inode, hbit, hback, hsb, hrd]
    simp only [and_true]
  have hneg₁ : (- EIO : ℤ) < 0 := by decide
  have hneg₂ : (-ENOMEM : ℤ) < 0 := by decide
  have hic : (w.markI n true).icache n = w.icache n := rfl
  have hsb : (w.markI n true).sb = w.sb := rfl
  simp only [yaf_new_inode, wp_bind, wp_yaf_get_free_inode hok.ibp_pos, takeI_of_some hr hn,
    if_neg hne, hnat, wp_yaf_iget (w := w.markI n true) hlt, hic, hsb]
  cases hc : w.icache n with
  | some c =>
      simp only [if_pos hneg₁, Int.lt_irrefl, if_false, wp_bind, wp_yaf_put_inode_back hn, wp_pure,
        wp_initInode hd, hcreate]
  | none =>
      simp only [if_pos hneg₁, if_pos hneg₂, Int.lt_irrefl, if_false, wp_bind,
        wp_yaf_put_inode_back hn, hlock, wp_pure, wp_initInode hd, hcreate]

end NewInode

/-- What `yaf_new_inode` may leave behind, in any state. -/
theorem wp_yaf_new_inode_of_forall {w : World} (hok : w.sb.Ok w.nblk) {dir : ℕ} {i : Inode}
    (hi : w.inode? dir = some i) {mode : UInt16} {Q : Except ℤ ℕ → World → Prop}
    {E : Fault → Prop} (hE : ∀ e, E e) (hsame : ∀ e, Q (.error e) w)
    (hover : (Mem.clears w.ibit 32768).head? = none → w.ibit NO_BIT.toNat = true →
      Q (.error (-EINVAL)) (w.markI NO_BIT.toNat false))
    (hzero : (Mem.clears w.ibit 32768).head? = some 0 → Q (.error (-ENOSPC)) (w.markI 0 true))
    (hlock : ∀ n, (Mem.clears w.ibit 32768).head? = some n → n < w.sb.nr_i * 64 →
      w.icache n = none → (w.markI n true).readable .inode (INO2BID w.sb n) = false →
      Q (.error (- EIO)) (w.lock n))
    (hnew : ∀ n d, (Mem.clears w.ibit 32768).head? = some n → n ≠ 0 → n < w.sb.nr_i * 64 →
      ((w.markI n true).load n).inode? dir = some d → Q (.ok n) (w.create n d mode)) :
    wp (yaf_new_inode dir mode) Q E w := by
  cases hr : w.readable .bitmap (BID_IBP_MIN w.sb) with
  | false => exact (wp_yaf_new_inode_of_noRead hok hr).2 (hsame _)
  | true =>
      cases hn : (Mem.clears w.ibit 32768).head? with
      | none =>
          rw [wp_yaf_new_inode_of_none hok hr hn]
          split
          · rename_i hbit
            exact hover hn hbit.2
          · exact hE _
      | some n =>
          rcases Nat.eq_zero_or_pos n with rfl | hpos
          · exact (wp_yaf_new_inode_zero hok hr hn rfl).2 (hzero hn)
          rcases Nat.lt_or_ge n (w.sb.nr_i * 64) with hlt | hge
          · have hd : ∃ d, ((w.markI n true).load n).inode? dir = some d := by
              rw [World.load, World.inode?_setCore _ _ rfl]
              split
              · exact ⟨_, rfl⟩
              · exact ⟨i, hi⟩
            obtain ⟨d, hd⟩ := hd
            rw [wp_yaf_new_inode_of_lt hok hr hn hpos.ne' hlt hd]
            dsimp only
            cases hc : w.icache n with
            | some c =>
                dsimp only
                split
                · exact hE _
                split
                · exact hnew n d hn hpos.ne' hlt hd
                split
                · exact hsame _
                · exact hE _
            | none =>
                dsimp only
                split
                · split
                  · exact hnew n d hn hpos.ne' hlt hd
                  split
                  · exact hlock n hn hlt hc (Bool.eq_false_of_not_eq_true ‹_›)
                  · exact hE _
                · split
                  · exact hsame _
                  · exact hE _
          · rw [wp_yaf_new_inode_of_le hok hr hn hpos.ne' hge]
            split
            · exact hsame _
            · exact hE _

section Link

variable {w : World} {dir : ℕ} {i : Inode} (hi : w.inode? dir = some i) {q : Qstr} {mode : UInt16}

include hi

theorem wp_linkDentry {doff : ℕ} (hk : doff / 4096 < 8)
    {Q : ℤ × Option ℕ → World → Prop} {E : Fault → Prop} :
    wp (linkDentry dir q mode doff) Q E w ↔
      if w.readable .dentry (DNO2BID w.sb (i.blk (doff / 4096)).toNat) then
        wp (yaf_new_inode dir mode) (fun r w' =>
          match r with
          | .error e => Q (e, none) w'
          | .ok n => Q (0, some n)
              (w'.link dir (DNO2BID w.sb (i.blk (doff / 4096)).toNat) (doff % 4096) n q)) E w
      else Q (- EIO, none) w := by
  simp only [linkDentry, wp_bind, wp_get, wp_getInode hi, YAF_BLOCK_SIZE_eq, wp_iblock _ hk,
    wp_sb_bread]
  split
  · rw [wp_bind]
    refine iff_of_eq (congrArg (fun P => wp (yaf_new_inode dir mode) P E w) ?_)
    funext r w'
    cases r with
    | error e => rfl
    | ok n =>
        simp only [wp_bind, wp_modifyBuf, wp_current_time, wp_modifyInode, wp_mark_inode_dirty,
          wp_pure, World.touch_edit, World.link, id]
        rfl
  · rfl

/-- An offset past the eighth block. -/
theorem wp_linkDentry_of_le {doff : ℕ} (hk : 8 ≤ doff / 4096)
    {Q : ℤ × Option ℕ → World → Prop} {E : Fault → Prop} :
    wp (linkDentry dir q mode doff) Q E w ↔ E .outOfBounds := by
  simp only [linkDentry, wp_bind, wp_get, wp_getInode hi, YAF_BLOCK_SIZE_eq, wp_iblock_of_le _ hk]

theorem inode?_attach (k : ℕ) : (w.attach dir k).inode? dir = some (i.setBlk k w.takeD.1) := by
  rw [World.attach, World.inode?_edit, if_pos rfl, World.inode?_takeD, hi]
  rfl

omit hi in
theorem attach_consts (k : ℕ) : (w.attach dir k).sb = w.sb ∧ (w.attach dir k).nblk = w.nblk ∧
    (w.attach dir k).io = w.io := by
  obtain ⟨h₁, h₂, h₃, -⟩ := w.takeD_consts
  exact ⟨h₁, h₂, h₃⟩

/-- Appending a slot to the block that was just attached. -/
theorem wp_appendDentry_attach {doff : ℕ} (hk : doff / 4096 < 8)
    {Q : ℤ → World → Prop} {E : Fault → Prop} :
    wp (appendDentry dir doff) Q E (w.attach dir (doff / 4096)) ↔
      if w.takeD.2.readable .dentry (DNO2BID w.sb w.takeD.1.toNat) then
        Q doff ((w.attach dir (doff / 4096)).append dir doff w.takeD.1)
      else E .panic := by
  have hsb : (w.attach dir (doff / 4096)).sb = w.sb := (attach_consts _).1
  have hblk : (i.setBlk (doff / 4096) w.takeD.1).blk (doff / 4096) = w.takeD.1 := by
    simp only [Inode.blk_of_lt _ hk, Inode.setBlk, if_true]
  have hrd : (w.attach dir (doff / 4096)).readable .dentry (DNO2BID w.sb w.takeD.1.toNat) =
      w.takeD.2.readable .dentry (DNO2BID w.sb w.takeD.1.toNat) := rfl
  rw [wp_appendDentry (inode?_attach hi _) hk, hblk, hsb, hrd]

/-- What the search for a free dentry may leave behind, in any state. -/
theorem wp_yaf_get_free_dentry_of_forall (hok : w.sb.Ok w.nblk)
    {Q : ℤ → World → Prop} {E : Fault → Prop} (hE : ∀ e, E e) (hQ : ∀ r ≥ -ENOSPC, Q r w)
    (happend : ∀ doff : ℕ, doff / 4096 < 8 → Q doff (w.append dir doff (i.blk (doff / 4096))))
    (hattach : ∀ doff : ℕ, doff / 4096 < 8 → i.blk (doff / 4096) = RESERVED_DNO →
      Q doff ((w.attach dir (doff / 4096)).append dir doff w.takeD.1)) :
    wp (yaf_get_free_dentry dir) Q E w := by
  rw [yaf_get_free_dentry, wp_bind, wp_getInode hi, wp_bind]
  refine wp_scanDir_of_forall (fun r => ?_) hE _ _
  cases r with
  | found doff => exact hQ _ (Int.le_trans (by decide) (Int.natCast_nonneg doff))
  | noRead => exact hQ _ (by decide)
  | done doff =>
      rcases Nat.lt_or_ge (doff / 4096) 8 with hk | hk
      · dsimp only
        split
        · exact hQ _ le_rfl
        split
        · rw [wp_bind, wp_attachDentryBlock hi hok hk]
          split
          · refine (wp_appendDentry_attach hi hk).2 ?_
            split
            · exact hattach doff hk ‹_›
            · exact hE _
          · exact hE _
        · rw [wp_appendDentry hi hk]
          split
          · exact happend doff hk
          · exact hE _
      · dsimp only
        split
        · exact hQ _ le_rfl
        split
        · simp only [attachDentryBlock, wp_bind, wp_yaf_get_free_dblock hok.dbp_pos,
            World.takeD_fst_ne, if_false, wp_getInode ((World.inode?_takeD _ _).trans hi),
            YAF_BLOCK_SIZE_eq, wp_iblock_of_le _ hk]
          exact hE _
        · simp only [appendDentry, wp_bind, wp_get, wp_getInode hi, YAF_BLOCK_SIZE_eq,
            wp_iblock_of_le _ hk]
          exact hE _

/-- **The search for a free dentry in a well-shaped directory.** -/
theorem wp_yaf_get_free_dentry (hok : w.sb.Ok w.nblk) {m : ℕ} (hs : i.i_size = 32 * m)
    (hm : m ≤ 1024) (hnext : m % 128 = 0 → i.blk (m / 128) = RESERVED_DNO)
    {Q : ℤ → World → Prop} {E : Fault → Prop}
    (hno : (∃ k, k * 128 < m ∧ w.readable .scan (DNO2BID w.sb (i.blk k).toNat) = false) →
      Q (- EIO) w)
    (hQ : match (List.range m).find? fun j =>
        isFree (w.disk (DNO2BID w.sb (i.blk (j / 128)).toNat)) (32 * (j % 128)) with
      | some j => Q (32 * j : ℕ) w
      | none =>
          if m = 1024 then Q (-ENOSPC) w
          else if m % 128 = 0 then
            if w.takeD.2.readable .dentry (DNO2BID w.sb w.takeD.1.toNat) then
              Q (32 * m : ℕ) ((w.attach dir (m / 128)).append dir (32 * m) w.takeD.1)
            else E .panic
          else if w.readable .dentry (DNO2BID w.sb (i.blk (m / 128)).toNat) then
            Q (32 * m : ℕ) (w.append dir (32 * m) (i.blk (m / 128)))
          else E .panic) :
    wp (yaf_get_free_dentry dir) Q E w := by
  have hdiv : 32 * m / 4096 = m / 128 := by omega
  rw [yaf_get_free_dentry, wp_bind, wp_getInode hi, wp_bind]
  refine wp_scanDir hs hm hno ?_
  cases hf : (List.range m).find? fun j =>
      isFree (w.disk (DNO2BID w.sb (i.blk (j / 128)).toNat)) (32 * (j % 128)) with
  | some j =>
      rw [hf] at hQ
      exact hQ
  | none =>
      rw [hf] at hQ
      have hfull : 32 * m / YAF_DENTRY_SIZE = MAX_DENTRYS ↔ m = 1024 := by
        rw [MAX_DENTRYS_eq, Nat.mul_div_cancel_left m (by decide)]
      have halign : 32 * m % YAF_BLOCK_SIZE = 0 ↔ m % 128 = 0 := by
        rw [YAF_BLOCK_SIZE_eq]
        omega
      simp only [hs, hfull, halign] at hQ ⊢
      split
      · rwa [if_pos ‹_›] at hQ
      rw [if_neg ‹_›] at hQ
      have hk : 32 * m / 4096 < 8 := by omega
      split
      · rw [if_pos ‹_›, ← hdiv] at hQ
        have hres : i.blk (32 * m / 4096) = RESERVED_DNO := by rw [hdiv]; exact hnext ‹_›
        rw [wp_bind, wp_attachDentryBlock hi hok hk, if_pos hres]
        exact (wp_appendDentry_attach hi hk).2 hQ
      · rw [if_neg ‹_›, ← hdiv] at hQ
        exact (wp_appendDentry hi hk).2 hQ

end Link

/-! ### Lookup -/

section Lookup

variable {w : World} {dir : ℕ} {i : Inode} (hi : w.inode? dir = some i) {q : Qstr}

include hi

/-- A lookup changes nothing. -/
theorem wp_lookup_of_forall {Q : ℤ → World → Prop} {E : Fault → Prop} (hE : ∀ e, E e)
    (hQ : ∀ r, Q r w) : wp (_yaf_lookup dir q) Q E w := by
  rw [_yaf_lookup]
  split
  · exact hQ _
  · rw [wp_bind, wp_getInode hi, wp_bind]
    refine wp_scanDir_of_forall (fun r => ?_) hE _ _
    cases r <;> exact hQ _

omit hi in
/-- A name that is too long is refused. -/
theorem wp_lookup_of_lt (hlen : 24 < q.len) {Q : ℤ → World → Prop} {E : Fault → Prop} :
    wp (_yaf_lookup dir q) Q E w ↔ Q (-ENAMETOOLONG) w := by
  rw [_yaf_lookup, YAF_DENTRY_NAME_LEN_eq, if_pos hlen, wp_pure]

/-- **A lookup in a well-shaped directory.** -/
theorem wp_lookup {m : ℕ} (hs : i.i_size = 32 * m) (hm : m ≤ 1024) (hlen : q.len ≤ 24)
    {Q : ℤ → World → Prop} {E : Fault → Prop}
    (hno : (∃ k, k * 128 < m ∧ w.readable .scan (DNO2BID w.sb (i.blk k).toNat) = false) →
      Q (- EIO) w)
    (hQ : match (List.range m).find? fun j =>
        isNamed q (w.disk (DNO2BID w.sb (i.blk (j / 128)).toNat)) (32 * (j % 128)) with
      | some j => Q (32 * j : ℕ) w
      | none => Q (-ENOENT) w) :
    wp (_yaf_lookup dir q) Q E w := by
  rw [_yaf_lookup, YAF_DENTRY_NAME_LEN_eq, if_neg (by omega), wp_bind, wp_getInode hi, wp_bind]
  refine wp_scanDir hs hm hno ?_
  cases hf : (List.range m).find? fun j =>
      isNamed q (w.disk (DNO2BID w.sb (i.blk (j / 128)).toNat)) (32 * (j % 128)) <;>
    rw [hf] at hQ <;> exact hQ

omit hi in
theorem wp_lookupOut {Q : ℤ → World → Prop} {E : Fault → Prop} :
    wp (lookupOut dir) Q E w ↔ Q 0 (w.touch dir fun i => { i with i_atime := w.now }) := by
  simp only [lookupOut, wp_bind, wp_current_time, wp_modifyInode, wp_mark_inode_dirty, wp_pure,
    World.touch_edit, id]

/-- What `yaf_lookup` may leave behind, in any state. -/
theorem wp_yaf_lookup_of_forall {Q : ℤ → World → Prop} {E : Fault → Prop}
    (hE : ∀ e, E e) (hQ : ∀ r, Q r w)
    (hmiss : Q 0 (w.touch dir fun i => { i with i_atime := w.now }))
    (hlock : ∀ n < w.sb.nr_i * 64, w.icache n = none →
      w.readable .inode (INO2BID w.sb n) = false → Q (- EIO) (w.lock n))
    (hload : ∀ n < w.sb.nr_i * 64,
      Q 0 ((w.load n).touch dir fun i => { i with i_atime := w.now })) :
    wp (yaf_lookup dir q) Q E w := by
  rw [yaf_lookup, wp_bind]
  refine wp_lookup_of_forall hi hE fun r => ?_
  split
  · split
    · rw [wp_lookupOut]
      exact hmiss
    · exact hQ _
  · rw [wp_bind, wp_get, wp_bind, wp_getInode hi, wp_bind]
    rcases Nat.lt_or_ge (r.toNat / YAF_BLOCK_SIZE) 8 with hk | hk
    · rw [wp_iblock _ hk, wp_bind, wp_sb_bread]
      split
      · rw [wp_bind, wp_bData, wp_bind]
        generalize (d_ino _ _).toNat = n
        rcases Nat.lt_or_ge n (w.sb.nr_i * 64) with hn | hn
        · have hload' : wp (if (0 : ℤ) < 0 then pure 0 else lookupOut dir) Q E (w.load n) := by
            rw [if_neg (Int.lt_irrefl 0), wp_lookupOut]
            exact hload n hn
          have herr : ∀ (e : ℤ) (w' : World), e < 0 → Q e w' →
              wp (if e < 0 then pure e else lookupOut dir) Q E w' := by
            intro e w' he hQ
            rwa [if_pos he]
          rw [wp_yaf_iget hn]
          cases hc : w.icache n with
          | some c =>
              dsimp only
              split
              · exact hE _
              split
              · exact hload'
              · exact herr _ _ (by decide) (hQ _)
          | none =>
              dsimp only
              split
              · split
                · exact hload'
                · exact herr _ _ (by decide) (hlock n hn hc (Bool.eq_false_of_not_eq_true ‹_›))
              · exact herr _ _ (by decide) (hQ _)
        · rw [wp_yaf_iget_of_le hn, if_pos (by decide)]
          exact hQ _
      · exact hQ _
    · rw [wp_iblock_of_le _ hk]
      exact hE _

end Lookup

/-! ### Deletion -/

/-- The entries the loop of `yaf_delete` visits. -/
def Inode.sized (i : Inode) : List ℕ :=
  (List.range ((i.i_size + 4095) / 4096)).map fun k => (i.blk k).toNat

namespace World

/-- The blocks of a list, released one after the other. -/
def unmark (w : World) (l : List ℕ) : World := l.foldl (fun w d => w.markD d false) w

/-- Every block of a list is marked when its turn comes, and its bit can be read. -/
def Releasable (w : World) : List ℕ → Prop
  | [] => True
  | d :: l => w.readable .bitmap (IDXD2BID w.sb d) = true ∧ w.dbit d = true ∧
      (w.markD d false).Releasable l

@[simp] theorem unmark_edit (w : World) (n : ℕ) (f : Inode → Inode) (l : List ℕ) :
    (w.edit n f).unmark l = (w.unmark l).edit n f := by
  induction l generalizing w with
  | nil => rfl
  | cons d l ih => exact ih (w.markD d false)

theorem releasable_edit (w : World) (n : ℕ) (f : Inode → Inode) (l : List ℕ) :
    (w.edit n f).Releasable l ↔ w.Releasable l := by
  induction l generalizing w with
  | nil => exact Iff.rfl
  | cons d l ih =>
      rw [Releasable, Releasable, markD_edit, ih (w.markD d false)]
      rfl

theorem unmark_consts (w : World) (l : List ℕ) :
    (w.unmark l).sb = w.sb ∧ (w.unmark l).nblk = w.nblk ∧ (w.unmark l).io = w.io ∧
      (w.unmark l).icache = w.icache ∧ (w.unmark l).opens = w.opens := by
  induction l generalizing w with
  | nil => exact ⟨rfl, rfl, rfl, rfl, rfl⟩
  | cons d l ih => exact ih (w.markD d false)

theorem iset_unmark (w : World) (l : List ℕ) : (w.unmark l).view.iset = w.view.iset := by
  induction l generalizing w with
  | nil => rfl
  | cons d l ih => exact (ih (w.markD d false)).trans (iset_markD w d false)

/-- The released blocks are not marked any more. -/
theorem dset_unmark {w : World} {l : List ℕ} {e : ℕ} (h : (w.unmark l).view.dset e = true) :
    w.view.dset e = true ∧ e ∉ l := by
  induction l generalizing w with
  | nil => exact ⟨h, List.not_mem_nil⟩
  | cons d l ih =>
      obtain ⟨h₁, hl⟩ := ih (w := w.markD d false) h
      obtain ⟨h₂, hd⟩ := dset_markD_false h₁
      exact ⟨h₂, by simp [hd, hl]⟩

/-- The blocks that are not in the list stay as they are. -/
theorem dset_unmark_of_notMem (w : World) {l : List ℕ} {e : ℕ} (h : e ∉ l) :
    (w.unmark l).view.dset e = w.view.dset e := by
  induction l generalizing w with
  | nil => rfl
  | cons d l ih =>
      rw [List.mem_cons, not_or] at h
      exact (ih _ h.2).trans (dset_markD_of_ne w h.1 false)

/-- The dentry at byte `off` of block `bid` freed, and the directory it was in. -/
def unlink (w : World) (dir bid off : ℕ) : World :=
  (w.setBlock bid (Mem.wr32 (w.disk bid) off RESERVED_INO)).touch dir
    fun i => { i.setTimes w.now with i_nlink := i.i_nlink - 1 }

end World

/-- `drop_nlink`. -/
def Inode.dropLink (i : Inode) : Inode := { i with i_nlink := i.i_nlink - 1 }

@[simp] theorem Inode.sized_dropLink (i : Inode) : i.dropLink.sized = i.sized := rfl

section Delete

/-- The loop of `yaf_delete` releases the entries below the size, and nothing else. -/
theorem wp_putBlocks {w : World} (i : Inode) {Q : Unit → World → Prop}
    {E : Fault → Prop}
    (hQ : i.i_size ≤ 32768 → w.Releasable i.sized → Q () (w.unmark i.sized))
    (hE : ¬(i.i_size ≤ 32768 ∧ w.Releasable i.sized) → ∀ e, E e) :
    wp (putBlocks i YAF_IBLOCKS 0) Q E w := by
  -- from entry `k` on
  have hloop : ∀ (rem k : ℕ) (w : World), k + rem = 8 →
      ∀ l, l = (List.range' k ((i.i_size + 4095) / 4096 - k)).map (fun k => (i.blk k).toNat) →
      (i.i_size ≤ 32768 → w.Releasable l → Q () (w.unmark l)) →
      (¬(i.i_size ≤ 32768 ∧ w.Releasable l) → ∀ e, E e) → wp (putBlocks i rem k) Q E w := by
    intro rem
    induction rem with
    | zero =>
        intro k w hk l hl hQ hE
        rw [putBlocks, YAF_BLOCK_SIZE_eq]
        split
        · exact hE (fun h => by omega) _
        · have hnil : l = [] := by
            rw [hl, Nat.sub_eq_zero_of_le (by omega)]
            rfl
          subst hnil
          exact hQ (by omega) trivial
    | succ rem ih =>
        intro k w hk l hl hQ hE
        rw [putBlocks, YAF_BLOCK_SIZE_eq]
        split
        · have hcons : l = (i.blk k).toNat ::
              (List.range' (k + 1) ((i.i_size + 4095) / 4096 - (k + 1))).map
                fun k => (i.blk k).toNat := by
            have hcnt : (i.i_size + 4095) / 4096 - k =
                ((i.i_size + 4095) / 4096 - (k + 1)) + 1 := by omega
            rw [hl, hcnt, List.range'_succ, List.map_cons]
          rw [wp_bind, wp_iblock _ (by omega), wp_bind, wp_yaf_put_dblock]
          rw [hcons] at hQ hE
          split
          · rename_i hmark
            refine ih (k + 1) (w.markD (i.blk k).toNat false) (by omega) _ rfl ?_ ?_
            · exact fun hs hr => hQ hs ⟨hmark.1, hmark.2, hr⟩
            · exact fun hn => hE fun h => hn ⟨h.1, h.2.2.2⟩
          · rename_i hmark
            exact hE (fun h => hmark ⟨h.2.1, h.2.2.1⟩) _
        · have hnil : l = [] := by
            rw [hl, Nat.sub_eq_zero_of_le (by omega)]
            rfl
          subst hnil
          exact hQ (by omega) trivial
  refine hloop 8 0 w rfl _ ?_ hQ hE
  rw [Nat.sub_zero, ← List.range_eq_range']
  rfl

variable {w : World} {dir ino : ℕ} {i j : Inode} (hi : w.inode? dir = some i)

include hi

/-- **What the deletion of the dentry at `doff` does**, when the inode has the fields `j` by the
time its link is dropped. -/
theorem wp_unlinkDentry {doff : ℕ} (hk : doff / 4096 < 8)
    (hj : (w.unlink dir (DNO2BID w.sb (i.blk (doff / 4096)).toNat) (doff % 4096)).inode? ino =
      some j)
    {Q : ℤ → World → Prop} {E : Fault → Prop} :
    wp (unlinkDentry dir ino doff) Q E w ↔
      if w.readable .dentry (DNO2BID w.sb (i.blk (doff / 4096)).toNat) then
        let w₁ := w.unlink dir (DNO2BID w.sb (i.blk (doff / 4096)).toNat) (doff % 4096)
        if j.i_nlink - 1 > 1 then Q 0 (w₁.touch ino Inode.dropLink)
        else
          wp (putBlocks j.dropLink YAF_IBLOCKS 0) (fun _ w₂ => wp (yaf_put_inode ino)
            (fun _ w₃ => Q 0 (w₃.touch ino id)) E w₂) E (w₁.edit ino Inode.dropLink)
      else Q (- EIO) w := by
  have hdrop : ((w.unlink dir (DNO2BID w.sb (i.blk (doff / 4096)).toNat) (doff % 4096)).edit ino
      Inode.dropLink).inode? ino = some j.dropLink := by
    rw [World.inode?_edit, if_pos rfl, hj]
    rfl
  have hunlink : ∀ bid off, ((w.setBlock bid (Mem.wr32 (w.disk bid) off RESERVED_INO)).touch dir
      fun x => { (x.setTimes w.now) with i_nlink := (x.setTimes w.now).i_nlink - 1 }) =
        w.unlink dir bid off := fun _ _ => rfl
  have hdl : (fun i : Inode => { i with i_nlink := i.i_nlink - 1 }) = Inode.dropLink := rfl
  simp only [unlinkDentry, wp_bind, wp_get, wp_getInode hi, YAF_BLOCK_SIZE_eq, wp_iblock _ hk,
    wp_sb_bread]
  split
  · simp only [wp_bind, wp_modifyBuf, wp_current_time, wp_modifyInode, wp_mark_inode_dirty,
      World.touch_edit, World.now_setBlock, id]
    rw [hunlink, hdl, wp_getInode hdrop]
    split
    · simp only [wp_bind, wp_mark_inode_dirty, World.touch_edit, wp_pure, id]
      rw [if_pos ‹_›]
    · simp only [wp_bind, wp_mark_inode_dirty, wp_pure]
      rw [if_neg ‹_›]
  · rfl

end Delete

end Yaf
