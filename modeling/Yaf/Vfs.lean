/-
**Mounting, and the operations of the VFS** (`yaf_fill_super` of `driver/super.c`).

The driver is called by the VFS, which does its own checks first and its own work around each
call.  An `Op` is one such call, or something the kernel does on its own: writing an in-memory
inode back, dropping one, letting time pass, a device that begins or ceases to fail.  `Op.Pre`
says when the VFS makes the call.

Main definitions:

* `Yaf.yaf_fill_super`, `Yaf.fresh` — the state right after mounting a fresh volume;
* `Yaf.Op`, `Yaf.step` — the operations and what they do;
* `Yaf.Op.Pre` — what the VFS checked before.

Main results:

* `Yaf.Volume.fresh_eq` — what the kernel holds after mounting a fresh volume;
* `Yaf.Volume.mounts_iff` — **which formatted devices can be mounted**.
-/

import Yaf.Dentry
import Yaf.File
import Yaf.Mkfs
import Mathlib.Tactic.IntervalCases

set_option relaxedAutoImplicit false
set_option autoImplicit false

namespace Yaf

open Prog

/-! ### Mounting -/

/-- The comparison of the whole `magic` array with repetitions of `MAGIC`. -/
def magicOk (b : Block) : Bool :=
  (List.range 1020).all fun i => (List.range 4).all fun j =>
    b (16 + 4 * i + j) == Mkfs.MAGIC.getD j 0

/-- `yaf_fill_super`.  `kzalloc` and `d_make_root` may be refused. -/
def yaf_fill_super : Driver ℤ := do
  if ← sb_bread .superblock 0 then
    let b ← bData 0
    if magicOk b then
      if ← ask .kzalloc then do
        modify fun w => { w with sb := ⟨(Mem.rd32 b 0).toNat, (Mem.rd32 b 4).toNat,
          (Mem.rd32 b 8).toNat, (Mem.rd32 b 12).toNat⟩ }
        let ret ← yaf_iget ROOT_INO
        if ret < 0 then pure ret
        else if ← ask .d_make_root then pure 0 else pure (-ENOMEM)
      else pure (-ENOMEM)
    else pure (-EINVAL)
  else pure (- EIO)

/-- A device of `nblk` blocks. -/
def World.resize (w : World) (nblk : ℕ) : World := { w with nblk := nblk }

/-- A volume made on a device of `bnr` blocks that held `old`, and who mounts it. -/
structure Volume where
  bnr : ℕ
  old : Disk
  uid : UInt32
  gid : UInt32
  now : ℤ

namespace Volume

/-- What `mkfs` promises to work on. -/
structure Ok (v : Volume) : Prop where
  le_bnr : 64 ≤ v.bnr
  bnr_lt : v.bnr < 2 ^ 32

/-- The kernel before the mount.  Nothing is refused during the mount. -/
def device (v : Volume) : World where
  sb := ⟨0, 0, 0, 0⟩
  nblk := v.bnr
  disk := Mkfs.image v.bnr v.uid v.gid v.old
  icache := fun _ => none
  opens := fun _ => 0
  now := v.now
  fsuid := v.uid
  fsgid := v.gid
  io := ioOk

end Volume

/-- **A fresh volume, mounted.** -/
def fresh (v : Volume) : World :=
  match yaf_fill_super.run v.device with
  | .ok (_, w) => w
  | .error _ => v.device

namespace Volume

/-- The volume right after the mount: the counts of the superblock, and the root inode in
memory. -/
def mounted (v : Volume) : World :=
  ({ v.device with sb := Mkfs.counts v.bnr } : World).setCore ROOT_INO
    (some ⟨(Mkfs.rootInode v.uid v.gid).toMem, false, false⟩)

/-- The magic string of a superblock is accepted. -/
theorem magicOk_of_superblock {b : Block} {sb : Yaf_Sb_Info}
    (h : ∀ o < 4096, b o = Mkfs.superblock sb o) : magicOk b = true := by
  have hbyte : ∀ i < 1020, ∀ j < 4, b (16 + 4 * i + j) = Mkfs.MAGIC.getD j 0 := by
    intro i hi j hj
    have hoff : (16 + 4 * i + j - 16) % 4 = j := by omega
    rw [h _ (by omega), Mkfs.superblock, Mem.wrWords_of_disjoint _ _ (.inr (by simp; omega)), hoff]
  simp only [magicOk, List.all_eq_true, List.mem_range, beq_iff_eq]
  exact hbyte

/-- The counts of a superblock are read back. -/
theorem rd32_superblock {b : Block} {sb : Yaf_Sb_Info} {nblk : ℕ} (hok : sb.Ok nblk)
    (h : ∀ o < 4096, b o = Mkfs.superblock sb o) :
    (⟨(Mem.rd32 b 0).toNat, (Mem.rd32 b 4).toNat, (Mem.rd32 b 8).toNat,
      (Mem.rd32 b 12).toNat⟩ : Yaf_Sb_Info) = sb := by
  have hread : ∀ i (hi : i < 4), Mem.rd32 b (0 + 4 * i) =
      [UInt32.ofNat sb.nr_ibp, UInt32.ofNat sb.nr_dbp, UInt32.ofNat sb.nr_i,
        UInt32.ofNat sb.nr_d][i] := by
    intro i hi
    rw [Mem.rd32_congr fun k hk => h (0 + 4 * i + k) (by omega)]
    exact Mem.rd32_wrWords [UInt32.ofNat sb.nr_ibp, UInt32.ofNat sb.nr_dbp,
      UInt32.ofNat sb.nr_i, UInt32.ofNat sb.nr_d] _ 0 i hi
  have hword : ∀ n < 2 ^ 32, (UInt32.ofNat n).toNat = n := fun n hn => UInt32.toNat_ofNat_of_lt' hn
  have h₁ := hok.total
  have h₂ := hok.fits
  have h₃ := hok.nblk_lt
  have h₄ := hread 0 (by omega)
  have h₅ := hread 1 (by omega)
  have h₆ := hread 2 (by omega)
  have h₇ := hread 3 (by omega)
  simp only [Nat.mul_zero, Nat.add_zero, List.getElem_cons_zero] at h₄
  simp only [Nat.zero_add, Nat.mul_one, List.getElem_cons_succ, List.getElem_cons_zero] at h₅ h₆ h₇
  rw [h₄, h₅, h₆, h₇, hword _ (by omega), hword _ (by omega), hword _ (by omega),
    hword _ (by omega)]

/-- The slot of the root inode. -/
theorem slot_mounted {v : Volume} (h : v.Ok) :
    v.mounted.slot ROOT_INO = Mkfs.rootInode v.uid v.gid := by
  have hok := Mkfs.counts_ok h.le_bnr h.bnr_lt
  obtain ⟨-, -, hroot⟩ := Mkfs.image_sections h.le_bnr h.bnr_lt v.uid v.gid v.old
  have hdisk : v.mounted.disk = Mkfs.image v.bnr v.uid v.gid v.old := rfl
  have hsb : v.mounted.sb = Mkfs.counts v.bnr := rfl
  have hbid : INO2BID (Mkfs.counts v.bnr) ROOT_INO = BID_I_MIN (Mkfs.counts v.bnr) := by
    rw [INO2BID_eq, BID_I_MIN_eq]
    rfl
  have hoff : INO2BOFF (Mkfs.counts v.bnr) ROOT_INO = 64 := rfl
  rw [World.slot, hsb, hbid, hoff, hdisk]
  refine Eq.trans ?_ (Yaf_Inode.read_writeSlot (fun _ => 0) 0 (Mkfs.rootInode v.uid v.gid))
  have hcopy : Yaf_Inode.read (Mkfs.image v.bnr v.uid v.gid v.old
      (BID_I_MIN (Mkfs.counts v.bnr))) 64 = Yaf_Inode.read (fun x =>
        Mkfs.image v.bnr v.uid v.gid v.old (BID_I_MIN (Mkfs.counts v.bnr)) (64 + x)) 0 := by
    simp only [Yaf_Inode.read, Mem.rd32, Nat.add_assoc, Nat.zero_add, Nat.add_zero]
  rw [hcopy]
  refine Yaf_Inode.read_congr fun x hx => ?_
  rw [Nat.zero_add, hroot (64 + x) (by omega) (by omega), Nat.add_sub_cancel_left]

/-- **Mounting a fresh volume**, also on a device with room behind it. -/
theorem wp_yaf_fill_super {v : Volume} (h : v.Ok) {nblk : ℕ} (hle : v.bnr ≤ nblk) :
    wp yaf_fill_super (fun r w => r = 0 ∧ w = v.mounted.resize nblk) (fun _ => False)
      (v.device.resize nblk) := by
  have hok := Mkfs.counts_ok h.le_bnr h.bnr_lt
  obtain ⟨hsuper, -, -⟩ := Mkfs.image_sections h.le_bnr h.bnr_lt v.uid v.gid v.old
  set w₀ : World := v.device.resize nblk with hw₀
  change ∀ o < 4096, w₀.disk 0 o = _ at hsuper
  have hdev : 0 < w₀.nblk := by
    have := h.le_bnr
    exact Nat.lt_of_lt_of_le (by omega) hle
  set w₁ : World := { w₀ with sb := Mkfs.counts v.bnr } with hw₁
  have hino : ROOT_INO < w₁.sb.nr_i * 64 := by
    have := hok.i_pos
    exact Nat.lt_of_lt_of_le (by decide) (Nat.mul_le_mul_right 64 this)
  have hslot : w₁.slot ROOT_INO = Mkfs.rootInode v.uid v.gid := slot_mounted h
  have hask : ∀ (w : World) r, w.io = ioOk → w.io r w.disk = true := fun w r h => by rw [h]; rfl
  rw [yaf_fill_super, wp_bind, wp_sb_bread, if_pos (w₀.readable_of_ioOk rfl _ hdev), wp_bind,
    wp_bData, if_pos (magicOk_of_superblock hsuper), wp_bind, wp_ask, if_pos (hask _ _ rfl),
    wp_bind, wp_modify, rd32_superblock hok hsuper, wp_bind, ← hw₁, wp_yaf_iget (w := w₁) hino]
  have hload : w₁.load ROOT_INO = v.mounted.resize nblk := by
    rw [World.load, hslot]
    rfl
  have hcache : w₁.icache ROOT_INO = none := rfl
  have hinode : w₁.readable .inode (INO2BID w₁.sb ROOT_INO) = true :=
    w₁.readable_of_ioOk rfl _ (Nat.lt_of_lt_of_le (hok.INO2BID_lt hino) hle)
  rw [hcache]
  dsimp only
  rw [if_pos (hask w₁ _ rfl), if_pos hinode]
  simp only [Int.lt_irrefl, if_false, hload]
  rw [wp_bind, wp_ask, if_pos (hask _ _ rfl), wp_pure]
  exact ⟨rfl, rfl⟩

theorem fresh_eq {v : Volume} (h : v.Ok) : fresh v = v.mounted := by
  have hrun : wp yaf_fill_super (fun r w => r = 0 ∧ w = v.mounted) (fun _ => False) v.device :=
    wp_yaf_fill_super h le_rfl
  obtain ⟨r, w, hr, -, rfl⟩ := hrun.exists_ok
  rw [fresh, hr]

/-! The view of a fresh volume. -/

section Mounted

variable {v : Volume} (h : v.Ok)

theorem inode?_mounted (n : ℕ) : v.mounted.inode? n =
    if n = ROOT_INO then some (Mkfs.rootInode v.uid v.gid).toMem else none := by
  by_cases hn : n = ROOT_INO
  · subst hn
    rw [if_pos rfl, World.inode?, mounted, World.icache_setCore_self]
    rfl
  · rw [if_neg hn, World.inode?, mounted, World.icache_setCore_of_ne _ _ _ hn]
    rfl

include h

theorem held_mounted : v.mounted.Held := by
  have hok := Mkfs.counts_ok h.le_bnr h.bnr_lt
  have hroot : ROOT_INO < (Mkfs.counts v.bnr).nr_i * 64 := by
    have := hok.i_pos
    exact Nat.lt_of_lt_of_le (by decide) (Nat.mul_le_mul_right 64 this)
  exact World.Held.setCore ⟨hok, fun _ _ hc => by simp [World.inode?, device] at hc⟩ rfl hroot
    (Nat.two_pow_pos 32)

/-- The two reserved numbers are marked. -/
theorem iset_mounted (n : ℕ) : v.mounted.view.iset n = decide (n < 2) := by
  have hok := Mkfs.counts_ok h.le_bnr h.bnr_lt
  rcases Nat.lt_or_ge n ((Mkfs.counts v.bnr).nr_ibp * 32768) with hn | hn
  · obtain ⟨-, hmap, -⟩ := Mkfs.image_sections h.le_bnr h.bnr_lt v.uid v.gid v.old
    have hbyte := hmap (IDXI2BID (Mkfs.counts v.bnr) n) (n % 32768 / 8)
      (by rw [IDXI2BID_eq]; omega) (by rw [IDXI2BID_eq, BID_I_MIN_eq]; omega) (by omega)
    have hbit : v.mounted.view.iset n = (Mkfs.image v.bnr v.uid v.gid v.old
        (IDXI2BID (Mkfs.counts v.bnr) n) (n % 32768 / 8)).toBitVec.getLsbD (n % 32768 % 8) :=
      World.iset_of_lt (w := v.mounted) hn
    rw [hbit, hbyte, IDXI2BID_eq]
    split
    · have hsmall : n < 8 := by omega
      interval_cases n <;> rfl
    · have hbig : ¬n < 2 := by omega
      rw [decide_eq_false hbig]
      simp
  · rw [World.iset_of_le (w := v.mounted) hn, eq_comm, decide_eq_false_iff_not]
    have := hok.ibp_pos
    omega

/-- No data block is marked. -/
theorem dset_mounted (d : ℕ) : v.mounted.view.dset d = false := by
  rcases Nat.lt_or_ge d ((Mkfs.counts v.bnr).nr_dbp * 32768) with hd | hd
  · obtain ⟨-, hmap, -⟩ := Mkfs.image_sections h.le_bnr h.bnr_lt v.uid v.gid v.old
    have hpos := (Mkfs.counts_ok h.le_bnr h.bnr_lt).ibp_pos
    have hbyte := hmap (IDXD2BID (Mkfs.counts v.bnr) d) (d % 32768 / 8)
      (by rw [IDXD2BID_eq]; omega) (by rw [IDXD2BID_eq, BID_I_MIN_eq]; omega) (by omega)
    have hbit : v.mounted.view.dset d = (Mkfs.image v.bnr v.uid v.gid v.old
        (IDXD2BID (Mkfs.counts v.bnr) d) (d % 32768 / 8)).toBitVec.getLsbD (d % 32768 % 8) :=
      World.dset_of_lt (w := v.mounted) hd
    rw [hbit, hbyte, IDXD2BID_eq, if_neg (by omega)]
    simp
  · exact World.dset_of_le (w := v.mounted) hd

end Mounted

/-! Which devices can be mounted. -/

/-- **A mount of a formatted volume**: it succeeds, has the counts of the volume and an empty root
directory, and only the reserved and the root inode are marked. -/
structure Mounts (v : Volume) (r : ℤ) (w : World) : Prop where
  ret : r = 0
  sb : w.sb = Mkfs.counts v.bnr
  root : ∃ i, w.inode? ROOT_INO = some i ∧ S_ISDIR i.i_mode = true ∧ i.i_nlink = 1 ∧
    i.i_size = 0 ∧ ∀ k, i.i_block k = RESERVED_DNO
  iset : ∀ n, w.view.iset n = true ↔ n = RESERVED_INO.toNat ∨ n = ROOT_INO

/-- A mount that succeeds found inode blocks. -/
theorem nr_i_of_yaf_fill_super (w : World) :
    wp yaf_fill_super (fun r w' => r = 0 → w'.sb.nr_i ≠ 0) (fun _ => True) w := by
  have hroot : ∀ (r : ℤ) (w₁ : World), w₁.sb.nr_i ≠ 0 →
      wp (do if r < 0 then pure r else if ← ask .d_make_root then pure 0 else pure (-ENOMEM))
        (fun r w' => r = 0 → w'.sb.nr_i ≠ 0) (fun _ => True) w₁ := by
    intro r w₁ hne
    split
    · exact fun _ => hne
    · rw [wp_bind, wp_ask]
      split <;> exact fun _ => hne
  rw [yaf_fill_super, wp_bind, wp_sb_bread, wp_ite]
  constructor
  · rw [wp_bind, wp_bData, wp_ite]
    intro _
    constructor
    · rw [wp_bind, wp_ask, wp_ite]
      intro _
      constructor
      · rw [wp_bind, wp_modify, wp_bind]
        intro _
        set w₁ : World := { w with sb := ⟨(Mem.rd32 (w.disk 0) 0).toNat,
          (Mem.rd32 (w.disk 0) 4).toNat, (Mem.rd32 (w.disk 0) 8).toNat,
          (Mem.rd32 (w.disk 0) 12).toNat⟩ }
        rcases Nat.lt_or_ge ROOT_INO (w₁.sb.nr_i * 64) with hlt | hge
        · have hne : w₁.sb.nr_i ≠ 0 := by
            intro h
            rw [h] at hlt
            omega
          rw [wp_yaf_iget hlt]
          split
          · split
            · trivial
            · split <;> exact hroot _ _ hne
          · split
            · split <;> exact hroot _ _ hne
            · exact hroot _ _ hne
        · rw [wp_yaf_iget_of_le hge, if_pos (by decide), wp_pure]
          exact fun h => absurd h (by decide)
      · rw [wp_pure]
        exact fun _ h => absurd h (by decide)
    · rw [wp_pure]
      exact fun _ h => absurd h (by decide)
  · rw [wp_pure]
    exact fun _ h => absurd h (by decide)

/-- A device that is too small cannot be mounted. -/
theorem not_mounts_of_lt {v : Volume} (h : v.bnr % 2 ^ 32 < 64) (w : World) :
    ¬wp yaf_fill_super v.Mounts (fun _ => False) w := by
  intro hm
  obtain ⟨r, w', hr, hmounts⟩ := hm.exists_ok
  refine (nr_i_of_yaf_fill_super w).ok hr hmounts.ret ?_
  rw [hmounts.sb]
  exact Mkfs.nr_i_counts_of_lt h

/-- **A formatted device can be mounted exactly when its block count is at least 64 in 32 bits.**
The device may have room behind the blocks `mkfs` counted. -/
theorem mounts_iff (v : Volume) {nblk : ℕ} (hle : v.bnr ≤ nblk) :
    wp yaf_fill_super v.Mounts (fun _ => False) (v.device.resize nblk) ↔
      64 ≤ v.bnr % 2 ^ 32 := by
  constructor
  · intro hm
    by_contra hlt
    exact not_mounts_of_lt (Nat.lt_of_not_le hlt) _ hm
  · intro h
    have hmod : v.bnr % 2 ^ 32 ≤ v.bnr := Nat.mod_le _ _
    -- the same image, with the block count cut off
    set v' : Volume := { v with bnr := v.bnr % 2 ^ 32 } with hv'
    have hok : v'.Ok := ⟨h, Nat.mod_lt _ (Nat.two_pow_pos 32)⟩
    have hdev : v.device.resize nblk = v'.device.resize nblk := by
      rw [World.resize, World.resize, device, device, hv', Mkfs.image_mod]
    rw [hdev]
    refine wp_mono (wp_yaf_fill_super hok (hmod.trans hle)) ?_ fun _ h => h
    rintro r w ⟨rfl, rfl⟩
    refine ⟨rfl, Mkfs.counts_mod v.bnr, ⟨_, inode?_mounted (v := v') ROOT_INO, ?_⟩, fun n => ?_⟩
    · exact ⟨(by decide : S_ISDIR (UInt32.toUInt16 0o040777) = true), rfl, rfl, fun _ => rfl⟩
    · have hset : v'.mounted.view.iset n = decide (n < 2) := iset_mounted hok n
      change v'.mounted.view.iset n = true ↔ _
      rw [hset, decide_eq_true_iff]
      exact Nat.lt_succ_iff.trans Nat.le_one_iff_eq_zero_or_eq_one

end Volume

/-! ### Operations -/

/-- What the VFS, or the kernel on its own, does with a mounted volume. -/
inductive Op where
  | lookup (dir : ℕ) (q : Qstr)
  | create (dir : ℕ) (q : Qstr) (mode : UInt16)
  | mkdir (dir : ℕ) (q : Qstr) (mode : UInt16)
  | unlink (dir : ℕ) (q : Qstr) (ino : ℕ)
  | rmdir (dir : ℕ) (q : Qstr) (ino : ℕ)
  | write (ino pos : ℕ) (data : List UInt8) (copied : ℕ)
  | setSize (ino size : ℕ)
  | openFile (ino : ℕ)
  | closeFile (ino : ℕ)
  | writeInode (ino : ℕ)
  | evict (ino : ℕ)
  | tick (now : ℤ) (fsuid fsgid : UInt32)
  | device (io : Req → Disk → Bool)

/-- `iput` of the last reference: an inode without links and without users leaves the cache. -/
def iput (ino : ℕ) : Driver Unit :=
  modify fun w =>
    match w.inode? ino with
    | some i => if i.i_nlink = 0 ∧ w.opens ino = 0 then w.setCore ino none else w
    | none => w

/-- A removal: after the driver succeeded, the dentry gives its inode up. -/
def remove (op : Driver ℤ) (ino : ℕ) : Driver ℤ := do
  let ret ← op
  if ret = 0 then iput ino
  pure ret

/-- `simple_setattr` with a new size: no function of the driver is called. -/
def simple_setattr (ino size : ℕ) : Driver ℤ := do
  modifyInode ino fun i => { i with i_size := size }
  mark_inode_dirty ino
  pure 0

/-- Writing one in-memory inode back; the VFS clears its dirty flag first. -/
def writeback (ino : ℕ) : Driver ℤ := do
  modify fun w => w.setCore ino ((w.icache ino).map fun c => { c with dirty := false })
  yaf_write_inode ino

/-- The result of an operation: the return code, and the inode a dentry was instantiated with. -/
abbrev Reply : Type := ℤ × Option ℕ

/-- **What an operation does.** -/
def step : Op → Driver Reply
  | .lookup dir q => do pure (← yaf_lookup dir q, none)
  | .create dir q mode => yaf_create dir q mode
  | .mkdir dir q mode => yaf_mkdir dir q mode
  | .unlink dir q ino => do pure (← remove (yaf_unlink dir q ino) ino, none)
  | .rmdir dir q ino => do pure (← remove (yaf_rmdir dir q ino) ino, none)
  | .write ino pos data copied => do pure (← vfs_write ino pos data copied, none)
  | .setSize ino size => do pure (← simple_setattr ino size, none)
  | .openFile ino => do
      modify fun w => { w with opens := Function.update w.opens ino (w.opens ino + 1) }
      pure (0, none)
  | .closeFile ino => do
      modify fun w => { w with opens := Function.update w.opens ino (w.opens ino - 1) }
      iput ino
      pure (0, none)
  | .writeInode ino => do pure (← writeback ino, none)
  | .evict ino => do
      modify fun w => w.setCore ino none
      pure (0, none)
  | .tick now fsuid fsgid => do
      modify fun w => { w with now := now, fsuid := fsuid, fsgid := fsgid }
      pure (0, none)
  | .device io => do
      modify fun w => { w with io := io }
      pure (0, none)

/-! ### What the VFS checks -/

namespace World

/-- The number an entry of a directory leads to, when `_yaf_lookup` finds the entry. -/
def boundTo (w : World) (dir : ℕ) (q : Qstr) : Option ℕ :=
  match (_yaf_lookup dir q).run w, w.inode? dir with
  | .ok (doff, _), some di =>
      if doff ≥ 0 then
        some (d_ino (w.disk (DNO2BID w.sb (di.blk (doff.toNat / YAF_BLOCK_SIZE)).toNat))
          (doff.toNat % YAF_BLOCK_SIZE)).toNat
      else none
  | _, _ => none

/-- The in-memory inode of the number is there, and is of the kind asked for. -/
def holds (w : World) (kind : UInt16 → Bool) (ino : ℕ) : Bool :=
  match w.inode? ino with
  | some i => kind i.i_mode
  | none => false

end World

/-- The largest size `simple_setattr` sets: the default `s_maxbytes`, `MAX_NON_LFS`. -/
abbrev MAX_NON_LFS : ℕ := 2 ^ 31 - 1

/-- **When the VFS makes the call.**  It holds the inodes of the call in memory, creates only over
a negative dentry, removes only what is there, and asks for a directory where one is needed. -/
def Op.Pre (w : World) : Op → Prop
  | .lookup dir _ => w.holds S_ISDIR dir
  | .create dir q mode => w.holds S_ISDIR dir ∧ w.boundTo dir q = none ∧ mode &&& S_IFMT = 0
  | .mkdir dir q mode => w.holds S_ISDIR dir ∧ w.boundTo dir q = none ∧ mode &&& S_IFMT = 0
  | .unlink dir q ino => w.holds S_ISDIR dir ∧ w.boundTo dir q = some ino ∧
      w.holds (fun m => !S_ISDIR m) ino
  | .rmdir dir q ino => w.holds S_ISDIR dir ∧ w.boundTo dir q = some ino ∧ w.holds S_ISDIR ino
  | .write ino pos data copied => w.holds S_ISREG ino ∧ 0 < data.length ∧
      pos % YAF_BLOCK_SIZE + data.length ≤ YAF_BLOCK_SIZE ∧ copied ≤ data.length
  | .setSize ino size => w.holds S_ISREG ino ∧ size ≤ MAX_NON_LFS
  | .openFile ino => w.holds S_ISREG ino ∧ (w.inode? ino).map Inode.i_nlink ≠ some 0
  | .closeFile ino => 0 < w.opens ino
  | .writeInode ino => (w.icache ino).map InCore.isNew = some false
  | .evict ino => (w.icache ino).map InCore.dirty = some false ∧
      (w.icache ino).map InCore.isNew = some false ∧ ino ≠ ROOT_INO ∧ w.opens ino = 0
  | .tick _ _ _ | .device _ => True

instance (w : World) (op : Op) : Decidable (op.Pre w) := by
  cases op <;> unfold Op.Pre <;> infer_instance

/-! ### Runs on given volumes -/

/-- Executing operations on a fresh volume, and checking where this ends. -/
theorem Volume.exists_run {v : Volume} (h : v.Ok) (ok : World → Op → Prop)
    [∀ w op, Decidable (ok w op)] (ops : List Op) (p : List (Op × Reply) → World → Bool)
    (hp : ((exec step ok v.mounted ops).any fun x => p x.1 x.2) = true) :
    ∃ l w, Run step ok (fresh v) l w ∧ p l w = true := by
  rw [fresh_eq h]
  exact exists_run_of_exec hp

/-- The smallest volume, on a device of zeros. -/
def Volume.small : Volume := ⟨64, fun _ _ => 0, 0, 0, 0⟩

theorem Volume.small_ok : Volume.small.Ok := ⟨le_rfl, by decide⟩

theorem Volume.mounts_small : wp yaf_fill_super Volume.small.Mounts (fun _ => False)
    (Volume.small.device.resize 64) := by
  have hle : Volume.small.bnr ≤ 64 := le_rfl
  rw [Volume.mounts_iff Volume.small hle]
  decide

/-- A device of ten blocks of zeros. -/
def Volume.tiny : Volume := ⟨10, fun _ _ => 0, 0, 0, 0⟩

/-- **A device of ten blocks is formatted and cannot be mounted**: all writes of `mkfs` end on
it. -/
theorem Volume.not_mounts_tiny :
    (∀ x ∈ Mkfs.writes Volume.tiny.bnr 0 0, x.off + x.len ≤ 10 * YAF_BLOCK_SIZE) ∧
      ¬wp yaf_fill_super Volume.tiny.Mounts (fun _ => False) Volume.tiny.device :=
  ⟨by decide +kernel, Volume.not_mounts_of_lt (by decide) _⟩

/-- The name made of `n + 1` letters. -/
def Qstr.letters (n : ℕ) : Qstr where
  name := List.replicate (n + 1) 65
  ne_nil := by simp
  nul_free h := absurd (List.eq_of_mem_replicate h) (by decide)

end Yaf
