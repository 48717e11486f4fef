/-
**Running `mkfs`** (`main` of `tool/mkfs.c`).

`Yaf.Mkfs` says what the writes of the tool leave on the device when all of them succeed.  Here
the tool is a program that calls `lseek` and `write`.  A call may fail, and sets `errno` then; a
`write` may also be cut short, and leaves `errno` as it was.  Each helper of the tool returns an
error code for both, but `main` replaces that code by `errno`.

The tool runs on a machine of either byte order.  Its superblock holds the counts as the disk has
them while it is written, and in the order of the machine afterwards, while the `BID_*` functions
apply `le32toh` at all times.

The calls of `log` and `debug_inode` only print, and are taken to leave `errno` alone.

Main definitions:

* `Yaf.Tool.Host` — the byte order of the machine, with `htole32` and `le32toh`;
* `Yaf.Tool.Sys` — `errno`, how the calls end, and the writes that were made;
* `Yaf.Tool.main` — the tool, from the size of the device on;
* `Yaf.Tool.volume` — the writes of a run in which every call succeeds.

Main results:

* `Yaf.Tool.main_eq` — the tool makes the writes of `volume` up to the first that fails;
* `Yaf.Tool.performed_little` — on a little-endian machine these are the writes of `Yaf.Mkfs`;
* `Yaf.Tool.main_whole_iff` — **when a return code of `0` means that the volume is complete**;
* `Yaf.Tool.performed_iff` — **when both byte orders make the same volume**.
-/

import Yaf.Mkfs

set_option relaxedAutoImplicit false
set_option autoImplicit false

namespace Yaf.Tool

open Prog Mkfs

/-! ### Machines -/

/-- The byte order of the machine the tool runs on. -/
inductive Host where
  | little
  | big

namespace Host

def htole32 : Host → UInt32 → UInt32
  | .little, v => v
  | .big, v => Mem.bswap32 v

def le32toh : Host → UInt32 → UInt32
  | .little, v => v
  | .big, v => Mem.bswap32 v

/-- Byte `i` of a word in memory. -/
def byte : Host → UInt32 → ℕ → UInt8
  | .little, v, i => Mem.byte32 v i
  | .big, v, i => Mem.byte32 v (3 - i)

/-- The bytes of a structure of words in memory. -/
def bytes (h : Host) (ws : List UInt32) (x : ℕ) : UInt8 := h.byte (ws.getD (x / 4) 0) (x % 4)

theorem le32toh_htole32 (h : Host) (v : UInt32) : h.le32toh (h.htole32 v) = v := by
  cases h with
  | little => rfl
  | big => exact Mem.bswap32_bswap32 v

/-- **A converted word has its bytes in little-endian order in memory.** -/
theorem byte_htole32 (h : Host) (v : UInt32) {i : ℕ} (hi : i < 4) :
    h.byte (h.htole32 v) i = Mem.byte32 v i := by
  cases h with
  | little => rfl
  | big =>
      have hsub : 3 - (3 - i) = i := by omega
      rw [byte, htole32, Mem.byte32_bswap32 v (by omega), hsub]

/-- A structure of converted words. -/
theorem bytes_map_htole32 (h : Host) (ws : List UInt32) (m : ℕ → UInt8) {x : ℕ}
    (hx : x < 4 * ws.length) : h.bytes (ws.map h.htole32) x = Mem.wrWords m 0 ws x := by
  have hlt : x / 4 < ws.length := by omega
  have hword : (ws.map h.htole32).getD (x / 4) 0 = h.htole32 (ws.getD (x / 4) 0) := by
    rw [List.getD_eq_getElem _ _ (by simpa using hlt), List.getElem_map,
      List.getD_eq_getElem _ _ hlt]
  have hwr := Mem.wrWords_eq ws m 0 hx
  rw [Nat.zero_add] at hwr
  rw [bytes, hword, h.byte_htole32 _ (Nat.mod_lt _ (by decide)), hwr]

end Host

/-! ### System calls -/

/-- What a failing call sets `errno` to. -/
abbrev Errno : Type := { e : ℤ // 0 < e }

/-- How a call of `write` ends. -/
inductive Written where
  | full
  /-- all but the last `missing + 1` bytes were written -/
  | short (missing : ℕ)
  | failed (e : Errno)

/-- A call of `write` that was made, with the number of bytes it wrote. -/
structure Transfer where
  write : Write
  count : ℕ

/-- A write that was made in full. -/
def Transfer.whole (x : Write) : Transfer := ⟨x, x.len⟩

/-- What the tool shares with the kernel.  `lseeks` and `writes` say how the calls end; the tool
makes a `write` after each `lseek` that succeeds, so the number of writes made so far is the
number of the next call of either kind. -/
structure Sys where
  errno : ℤ
  pos : ℕ
  lseeks : ℕ → Option Errno
  writes : ℕ → Written
  log : List Transfer

/-- The kernel before the first call. -/
def Sys.start (errno : ℤ) (lseeks : ℕ → Option Errno) (writes : ℕ → Written) : Sys :=
  ⟨errno, 0, lseeks, writes, []⟩

/-- Code of the tool. -/
abbrev Process (α : Type) : Type := Prog Empty Sys α

def errno : Process ℤ := do pure (← get).errno

/-- `lseek(bfd, off, SEEK_SET)`. -/
def lseek (off : ℕ) : Process ℤ := do
  match (← get).lseeks (← get).log.length with
  | some e => do
      modify fun s => { s with errno := e }
      pure (-1)
  | none => do
      modify fun s => { s with pos := off }
      pure off

/-- `write` of `len` bytes at the current position. -/
def write (len : ℕ) (byte : ℕ → UInt8) : Process ℤ := do
  let x : Write := ⟨(← get).pos, len, byte⟩
  match (← get).writes (← get).log.length with
  | .full => do
      modify fun s => { s with log := s.log ++ [⟨x, len⟩] }
      pure len
  | .short missing => do
      modify fun s => { s with log := s.log ++ [⟨x, len - (missing + 1)⟩] }
      pure (len - (missing + 1) : ℕ)
  | .failed e => do
      modify fun s => { s with errno := e, log := s.log ++ [⟨x, 0⟩] }
      pure (-1)

/-! ### The tool -/

/-- The superblock in the memory of the tool. -/
structure Yaf_Superblock where
  nr_ibp : UInt32
  nr_dbp : UInt32
  nr_i : UInt32
  nr_d : UInt32

/-- The counts as the `BID_*` functions of the tool read them. -/
def Yaf_Superblock.sb (h : Host) (ysb : Yaf_Superblock) : Yaf_Sb_Info where
  nr_ibp := (h.le32toh ysb.nr_ibp).toNat
  nr_dbp := (h.le32toh ysb.nr_dbp).toNat
  nr_i := (h.le32toh ysb.nr_i).toNat
  nr_d := (h.le32toh ysb.nr_d).toNat

/-- The bytes of the superblock structure: the counts, and `MAGIC` again and again. -/
def Yaf_Superblock.bytes (h : Host) (ysb : Yaf_Superblock) (x : ℕ) : UInt8 :=
  if x < 16 then h.bytes [ysb.nr_ibp, ysb.nr_dbp, ysb.nr_i, ysb.nr_d] x
  else MAGIC.getD ((x - 16) % 4) 0

/-- What each helper does for one piece of the volume: `lseek`, `write`, and an error code when
either did not do what it was asked to. -/
def put (x : Write) : Process ℤ := do
  let ret ← lseek x.off
  if ret = -1 then errno
  else do
    let ret ← write x.len x.byte
    if ret ≠ x.len then pure (- EIO) else pure 0

/-- `write_superblock`, with the superblock it leaves in memory. -/
def write_superblock (h : Host) (bnr : ℕ) : Process (ℤ × Yaf_Superblock) := do
  let nr := counts bnr
  let ysb : Yaf_Superblock :=
    { nr_ibp := h.htole32 (UInt32.ofNat nr.nr_ibp)
      nr_dbp := h.htole32 (UInt32.ofNat nr.nr_dbp)
      nr_i := h.htole32 (UInt32.ofNat nr.nr_i)
      nr_d := h.htole32 (UInt32.ofNat nr.nr_d) }
  let ret ← put ⟨BID_SB_MIN (ysb.sb h) * YAF_BLOCK_SIZE, YAF_BLOCK_SIZE, ysb.bytes h⟩
  if ret ≠ 0 then pure (ret, ysb)
  else
    -- back to the order of the machine
    pure (0,
      { nr_ibp := h.le32toh ysb.nr_ibp
        nr_dbp := h.le32toh ysb.nr_dbp
        nr_i := h.le32toh ysb.nr_i
        nr_d := h.le32toh ysb.nr_d })

/-- The loops over the blocks of a bitmap section: `rem` blocks are left, the next is `start + i`. -/
def zeroBlocks (start : ℕ) : ℕ → ℕ → Process ℤ
  | 0, _ => pure 0
  | rem + 1, i => do
      let ret ← put ⟨(start + i) * YAF_BLOCK_SIZE, YAF_BLOCK_SIZE, fun _ => 0⟩
      if ret ≠ 0 then pure ret else zeroBlocks start rem (i + 1)

def write_inode_bitmap (h : Host) (ysb : Yaf_Superblock) : Process ℤ := do
  let ret ← zeroBlocks (BID_IBP_MIN (ysb.sb h)) (h.le32toh ysb.nr_ibp).toNat 0
  if ret ≠ 0 then pure ret
  else put ⟨IDXI2BID (ysb.sb h) 0 * YAF_BLOCK_SIZE + IDX2BKOFF 0, 1,
    fun _ => yaf_set_bit (yaf_set_bit 0 (IDX2BEOFF 0)) (IDX2BEOFF ROOT_INO)⟩

def write_data_bitmap (h : Host) (ysb : Yaf_Superblock) : Process ℤ :=
  zeroBlocks (BID_DBP_MIN (ysb.sb h)) (h.le32toh ysb.nr_dbp).toNat 0

/-- The root inode in memory: `i_size` and `i_block` are not converted. -/
def rootWords (h : Host) (uid gid : UInt32) : List UInt32 :=
  [h.htole32 0o040777, h.htole32 uid, h.htole32 gid, h.htole32 1, 0, h.htole32 0, h.htole32 0,
    h.htole32 0] ++ List.replicate YAF_IBLOCKS RESERVED_DNO

def write_inode_blocks (h : Host) (ysb : Yaf_Superblock) (uid gid : UInt32) : Process ℤ :=
  put ⟨INO2BID (ysb.sb h) ROOT_INO * YAF_BLOCK_SIZE + INO2BOFF (ysb.sb h) ROOT_INO,
    YAF_INODE_SIZE, h.bytes (rootWords h uid gid)⟩

def write_data_blocks : Process ℤ := pure 0

/-- **`main`**, from the number of blocks of the device on.  `open`, `fstat` and `ioctl` have
succeeded. -/
def main (h : Host) (bnr : ℕ) (uid gid : UInt32) : Process ℤ := do
  let (ret, ysb) ← write_superblock h bnr
  if ret ≠ 0 then errno
  else do
    let ret ← write_inode_bitmap h ysb
    if ret ≠ 0 then errno
    else do
      let ret ← write_data_bitmap h ysb
      if ret ≠ 0 then errno
      else do
        let ret ← write_inode_blocks h ysb uid gid
        if ret ≠ 0 then errno
        else do
          let ret ← write_data_blocks
          if ret ≠ 0 then errno else pure ret

/-! ### The writes of a run -/

/-- One piece after another, up to the first that fails. -/
def andThen (x y : Process ℤ) : Process ℤ := do
  let ret ← x
  if ret ≠ 0 then pure ret else y

/-- A step of `main`, and what follows when it did not fail. -/
def checked (x k : Process ℤ) : Process ℤ := do
  let ret ← x
  if ret ≠ 0 then errno else k

/-- Making writes in order, up to the first that fails. -/
def putAll : List Write → Process ℤ
  | [] => pure 0
  | x :: xs => andThen (put x) (putAll xs)

/-- The superblock in memory while it is written. -/
def converted (h : Host) (bnr : ℕ) : Yaf_Superblock where
  nr_ibp := h.htole32 (UInt32.ofNat (counts bnr).nr_ibp)
  nr_dbp := h.htole32 (UInt32.ofNat (counts bnr).nr_dbp)
  nr_i := h.htole32 (UInt32.ofNat (counts bnr).nr_i)
  nr_d := h.htole32 (UInt32.ofNat (counts bnr).nr_d)

/-- The superblock in memory afterwards. -/
def restored (bnr : ℕ) : Yaf_Superblock where
  nr_ibp := UInt32.ofNat (counts bnr).nr_ibp
  nr_dbp := UInt32.ofNat (counts bnr).nr_dbp
  nr_i := UInt32.ofNat (counts bnr).nr_i
  nr_d := UInt32.ofNat (counts bnr).nr_d

/-- **The writes of a run in which every call succeeds.** -/
def volume (h : Host) (bnr : ℕ) (uid gid : UInt32) : List Write :=
  let sb := (restored bnr).sb h
  [⟨0, YAF_BLOCK_SIZE, (converted h bnr).bytes h⟩] ++ Mkfs.write_inode_bitmap sb ++
    Mkfs.write_data_bitmap sb ++
    [⟨INO2BID sb ROOT_INO * YAF_BLOCK_SIZE + INO2BOFF sb ROOT_INO, YAF_INODE_SIZE,
      h.bytes (rootWords h uid gid)⟩]

theorem andThen_pure (x : Process ℤ) : andThen x (pure 0) = x := by
  have hpure : ∀ ret : ℤ, (if ret ≠ 0 then pure ret else pure 0 : Process ℤ) = pure ret := by
    intro ret
    split
    · rfl
    · rename_i hret
      rw [not_not.1 hret]
  simp only [andThen, hpure, bind_pure]

theorem andThen_assoc (x y z : Process ℤ) : andThen (andThen x y) z = andThen x (andThen y z) := by
  rw [andThen, andThen, bind_assoc]
  refine bind_congr fun ret => ?_
  split
  · rename_i hret
    rw [pure_bind, if_pos hret]
  · rfl

/-- Two steps of `main` as one. -/
theorem checked_checked (x y k : Process ℤ) :
    checked x (checked y k) = checked (andThen x y) k := by
  simp only [checked, andThen, bind_assoc]
  refine bind_congr fun ret => ?_
  split
  · rename_i hret
    rw [pure_bind, if_pos hret]
  · rfl

theorem putAll_singleton (x : Write) : putAll [x] = put x := andThen_pure _

theorem putAll_append (xs ys : List Write) :
    putAll (xs ++ ys) = andThen (putAll xs) (putAll ys) := by
  induction xs with
  | nil => rfl
  | cons x xs ih => rw [List.cons_append, putAll, ih, putAll, andThen_assoc]

theorem zeroBlocks_eq (start rem i : ℕ) : zeroBlocks start rem i =
    putAll ((List.range' i rem).map fun i =>
      ⟨(start + i) * YAF_BLOCK_SIZE, YAF_BLOCK_SIZE, fun _ => 0⟩) := by
  induction rem generalizing i with
  | zero => rfl
  | succ rem ih =>
      rw [zeroBlocks, List.range'_succ, List.map_cons, putAll, ← ih]
      rfl

theorem write_inode_bitmap_eq (h : Host) (ysb : Yaf_Superblock) :
    write_inode_bitmap h ysb = putAll (Mkfs.write_inode_bitmap (ysb.sb h)) := by
  rw [Mkfs.write_inode_bitmap, putAll_append, putAll_singleton, write_inode_bitmap, zeroBlocks_eq,
    ← List.range_eq_range']
  rfl

theorem write_data_bitmap_eq (h : Host) (ysb : Yaf_Superblock) :
    write_data_bitmap h ysb = putAll (Mkfs.write_data_bitmap (ysb.sb h)) := by
  rw [Mkfs.write_data_bitmap, write_data_bitmap, zeroBlocks_eq, ← List.range_eq_range']
  rfl

/-- `write_superblock`, and the rest of `main` with the superblock it leaves. -/
theorem checked_write_superblock (h : Host) (bnr : ℕ) (k : Yaf_Superblock → Process ℤ) :
    (write_superblock h bnr >>= fun p => if p.1 ≠ 0 then errno else k p.2) =
      checked (put ⟨0, YAF_BLOCK_SIZE, (converted h bnr).bytes h⟩) (k (restored bnr)) := by
  simp only [write_superblock, checked, bind_assoc, Host.le32toh_htole32, BID_SB_MIN_eq,
    Nat.zero_mul, converted, restored]
  refine bind_congr fun ret => ?_
  split
  · rename_i hret
    rw [pure_bind]
    exact if_pos hret
  · rfl

/-- **The tool makes the writes of the volume**, up to the first that fails. -/
theorem main_eq (h : Host) (bnr : ℕ) (uid gid : UInt32) :
    main h bnr uid gid = checked (putAll (volume h bnr uid gid)) (pure 0) := by
  refine (checked_write_superblock h bnr fun ysb => checked (write_inode_bitmap h ysb)
    (checked (write_data_bitmap h ysb) (checked (write_inode_blocks h ysb uid gid)
      (pure 0)))).trans ?_
  rw [write_inode_bitmap_eq, write_data_bitmap_eq,
    write_inode_blocks, checked_checked, checked_checked, checked_checked, ← putAll_singleton,
    ← putAll_singleton, ← putAll_append, ← putAll_append, ← putAll_append]
  rfl

/-! ### Return codes -/

/-- Whether, among the `rem` calls of each kind from call `n` on, the first that does not do all it
was asked to is a `write` cut short. -/
def shortFirst (lseeks : ℕ → Option Errno) (writes : ℕ → Written) : ℕ → ℕ → Bool
  | 0, _ => false
  | rem + 1, n =>
      match lseeks n with
      | some _ => false
      | none =>
          match writes n with
          | .full => shortFirst lseeks writes rem (n + 1)
          | .short _ => true
          | .failed _ => false

theorem wp_put (x : Write) (hx : 0 < x.len) (s : Sys) {Q : ℤ → Sys → Prop} {E : Empty → Prop} :
    wp (put x) Q E s ↔
      match s.lseeks s.log.length with
      | some e => Q e { s with errno := e }
      | none =>
          match s.writes s.log.length with
          | .full => Q 0 { s with pos := x.off, log := s.log ++ [Transfer.whole x] }
          | .short missing => Q (- EIO)
              { s with pos := x.off, log := s.log ++ [⟨x, x.len - (missing + 1)⟩] }
          | .failed e => Q (- EIO)
              { s with pos := x.off, errno := e, log := s.log ++ [⟨x, 0⟩] } := by
  have hoff : ¬(x.off : ℤ) = -1 := by omega
  rw [put, lseek, wp_bind, wp_bind, wp_get, wp_bind, wp_get]
  cases s.lseeks s.log.length with
  | some e => simp only [wp_bind, wp_modify, wp_pure, if_true, errno, wp_get]
  | none =>
      simp only [wp_bind, wp_modify, wp_pure, if_neg hoff, write, wp_get]
      cases s.writes s.log.length with
      | full =>
          simp only [wp_bind, wp_modify, wp_pure, ne_eq, not_true_eq_false, if_false]
          rfl
      | short missing =>
          have hne : ((x.len - (missing + 1) : ℕ) : ℤ) ≠ x.len := by omega
          simp only [wp_bind, wp_modify, wp_pure, if_pos hne]
      | failed e =>
          have hne : (-1 : ℤ) ≠ x.len := by omega
          simp only [wp_bind, wp_modify, wp_pure, if_pos hne]

/-- **Making writes in order.**  Either all are made in full, or a failing call set `errno`, or a
`write` was cut short and `errno` is what it was. -/
theorem wp_putAll (ws : List Write) (hws : ∀ x ∈ ws, 0 < x.len) (s : Sys) :
    wp (putAll ws) (fun r s' =>
      if shortFirst s.lseeks s.writes ws.length s.log.length = true then
        r ≠ 0 ∧ s'.errno = s.errno ∧ ∃ t ∈ s'.log, t.count ≠ t.write.len
      else (r = 0 ∧ s'.log = s.log ++ ws.map Transfer.whole) ∨
        (r ≠ 0 ∧ 0 < s'.errno ∧ ∃ k e, s.lseeks k = some e ∨ s.writes k = .failed e))
      (fun _ => False) s := by
  induction ws generalizing s with
  | nil => exact .inl ⟨rfl, (List.append_nil _).symm⟩
  | cons x xs ih =>
      have hx := hws x List.mem_cons_self
      rw [putAll, andThen, wp_bind, wp_put x hx, List.length_cons, shortFirst]
      cases hseek : s.lseeks s.log.length with
      | some e =>
          have he : (e : ℤ) ≠ 0 := e.property.ne'
          simp only [if_pos he]
          exact .inr ⟨he, e.property, s.log.length, e, .inl hseek⟩
      | none =>
          have hio : (- EIO : ℤ) ≠ 0 := by decide
          cases hwrite : s.writes s.log.length with
          | full =>
              have := ih (fun y hy => hws y (List.mem_cons_of_mem _ hy))
                { s with pos := x.off, log := s.log ++ [Transfer.whole x] }
              simpa only [ne_eq, not_true_eq_false, if_false, List.length_append,
                List.length_singleton, List.append_assoc, List.map_cons, List.cons_append,
                List.nil_append] using this
          | short missing =>
              simp only [if_pos hio]
              refine ⟨hio, rfl, ⟨x, x.len - (missing + 1)⟩, by simp, ?_⟩
              exact (Nat.sub_lt hx (Nat.succ_pos missing)).ne
          | failed e =>
              simp only [if_pos hio]
              exact .inr ⟨hio, e.property, s.log.length, e, .inr hwrite⟩

theorem len_volume (h : Host) (bnr : ℕ) (uid gid : UInt32) :
    ∀ x ∈ volume h bnr uid gid, 0 < x.len := by
  intro x hx
  simp only [volume, Mkfs.write_inode_bitmap, Mkfs.write_data_bitmap, List.mem_append,
    List.mem_singleton, List.mem_map] at hx
  obtain ((rfl | ⟨i, -, rfl⟩ | rfl) | ⟨i, -, rfl⟩) | rfl := hx <;> exact Nat.succ_pos _

/-- **A return code of `0` means that the volume is complete, unless `errno` was `0` and a `write`
is cut short before any call fails.** -/
theorem main_whole_iff (h : Host) (bnr : ℕ) (uid gid : UInt32) (errno₀ : ℤ)
    (lseeks : ℕ → Option Errno) (writes : ℕ → Written) :
    wp (main h bnr uid gid)
        (fun r s => r = 0 → s.log = (volume h bnr uid gid).map Transfer.whole) (fun _ => False)
        (Sys.start errno₀ lseeks writes) ↔
      ¬(errno₀ = 0 ∧ shortFirst lseeks writes (volume h bnr uid gid).length 0 = true) := by
  have hput := wp_putAll (volume h bnr uid gid) (len_volume h bnr uid gid)
    (Sys.start errno₀ lseeks writes)
  obtain ⟨r, s, hrun, hs⟩ := hput.exists_ok
  rw [main_eq, checked, wp_bind, wp_of_run_ok hrun]
  change if shortFirst lseeks writes (volume h bnr uid gid).length 0 = true then
    r ≠ 0 ∧ s.errno = errno₀ ∧ ∃ t ∈ s.log, t.count ≠ t.write.len else _ at hs
  split at hs
  · rename_i hshort
    obtain ⟨hret, herrno, t, ht, hcount⟩ := hs
    rw [if_pos hret, errno, wp_bind, wp_get, wp_pure, herrno]
    -- a short write is in the log, so that it cannot be the log of the whole volume
    have hlog : s.log ≠ (volume h bnr uid gid).map Transfer.whole := by
      intro hlog
      rw [hlog, List.mem_map] at ht
      obtain ⟨x, -, rfl⟩ := ht
      exact hcount rfl
    constructor
    · rintro hall ⟨h₀, -⟩
      exact hlog (hall h₀)
    · intro hno h₀
      exact absurd ⟨h₀, hshort⟩ hno
  · rename_i hshort
    refine iff_of_true ?_ fun h => hshort h.2
    obtain ⟨rfl, hlog⟩ | ⟨hret, hpos⟩ := hs
    · rw [if_neg (not_not.2 rfl), wp_pure]
      exact fun _ => hlog
    · rw [if_pos hret, errno, wp_bind, wp_get, wp_pure]
      exact fun h₀ => absurd h₀ hpos.1.ne'

/-- **The first write of a run is cut short, and `mkfs` reports success.** -/
theorem not_main_whole : ¬wp (main .little 64 0 0)
    (fun r s => r = 0 → s.log = (volume .little 64 0 0).map Transfer.whole) (fun _ => False)
    (Sys.start 0 (fun _ => none) fun _ => .short 0) := by
  intro h
  have hrun : (main .little 64 0 0).run (Sys.start 0 (fun _ => none) fun _ => .short 0) =
      .ok (0, ⟨0, 0, fun _ => none, fun _ => .short 0,
        [⟨⟨0, 4096, (converted .little 64).bytes .little⟩, 4095⟩]⟩) := rfl
  have hlen := congrArg List.length (h.ok hrun rfl)
  exact absurd hlen (by decide +kernel)

/-! ### Byte orders -/

/-- A write as the device sees it. -/
def bytesOf (x : Write) : ℕ × List UInt8 := (x.off, (List.range x.len).map x.byte)

/-- The same set of writes, as the device sees them. -/
def SameWrites (xs ys : List Write) : Prop := ∀ p, p ∈ xs.map bytesOf ↔ p ∈ ys.map bytesOf

/-- The writes the tool performs when every call succeeds. -/
def performed (h : Host) (bnr : ℕ) (uid gid : UInt32) : List Write :=
  ((main h bnr uid gid).run (Sys.start 0 (fun _ => none) fun _ => .full)).toOption.elim []
    fun p => p.2.log.map Transfer.write

theorem shortFirst_full {lseeks : ℕ → Option Errno} {writes : ℕ → Written}
    (hseek : ∀ k, lseeks k = none) (hwrite : ∀ k, writes k = .full) (rem n : ℕ) :
    shortFirst lseeks writes rem n = false := by
  induction rem generalizing n with
  | zero => rfl
  | succ rem ih =>
      rw [shortFirst, hseek, hwrite]
      exact ih (n + 1)

/-- A run in which every call succeeds. -/
theorem wp_main_full (h : Host) (bnr : ℕ) (uid gid : UInt32) {s : Sys} (hlog : s.log = [])
    (hseek : ∀ k, s.lseeks k = none) (hwrite : ∀ k, s.writes k = .full) :
    wp (main h bnr uid gid)
      (fun r s' => r = 0 ∧ s'.log = (volume h bnr uid gid).map Transfer.whole) (fun _ => False)
      s := by
  rw [main_eq, checked, wp_bind]
  refine wp_mono (wp_putAll _ (len_volume h bnr uid gid) _) ?_ fun _ h => h
  intro r s' hs
  rw [shortFirst_full hseek hwrite, if_neg Bool.false_ne_true] at hs
  obtain ⟨rfl, hlog'⟩ | ⟨-, -, k, e, hk | hk⟩ := hs
  · rw [if_neg (not_not.2 rfl), wp_pure, hlog', hlog]
    exact ⟨rfl, List.nil_append _⟩
  · rw [hseek] at hk
    exact absurd hk (Option.some_ne_none e).symm
  · rw [hwrite] at hk
    exact absurd hk Written.noConfusion

theorem performed_eq (h : Host) (bnr : ℕ) (uid gid : UInt32) :
    performed h bnr uid gid = volume h bnr uid gid := by
  have hwrite : Transfer.write ∘ Transfer.whole = id := rfl
  rw [performed]
  generalize hs : Sys.start 0 (fun _ => none) (fun _ => .full) = s
  obtain ⟨r, s', hrun, -, hlog⟩ := (wp_main_full h bnr uid gid (s := s) (by rw [← hs]; rfl)
    (fun _ => by rw [← hs]; rfl) fun _ => by rw [← hs]; rfl).exists_ok
  rw [hrun]
  change s'.log.map Transfer.write = _
  rw [hlog, List.map_map, hwrite, List.map_id]

theorem bytesOf_congr {x y : Write} (hoff : x.off = y.off) (hlen : x.len = y.len)
    (hbyte : ∀ o < x.len, x.byte o = y.byte o) : bytesOf x = bytesOf y := by
  rw [bytesOf, bytesOf, hoff, ← hlen]
  congr 1
  exact List.map_congr_left fun o ho => hbyte o (List.mem_range.1 ho)

/-- The superblock is the same on every machine. -/
theorem bytes_converted (h : Host) (bnr : ℕ) (x : ℕ) :
    (converted h bnr).bytes h x = superblock (counts bnr) x := by
  rw [Yaf_Superblock.bytes, superblock]
  split
  · rename_i hx
    exact h.bytes_map_htole32 [UInt32.ofNat (counts bnr).nr_ibp, UInt32.ofNat (counts bnr).nr_dbp,
      UInt32.ofNat (counts bnr).nr_i, UInt32.ofNat (counts bnr).nr_d] _ hx
  · rename_i hx
    rw [Mem.wrWords_of_disjoint _ _ (.inr (by simpa using hx))]

/-- The root inode is the same on every machine. -/
theorem bytes_rootWords (h : Host) (uid gid : UInt32) {x : ℕ} (hx : x < 64) :
    h.bytes (rootWords h uid gid) x = (rootInode uid gid).writeSlot (fun _ => 0) 0 x := by
  have hzero : h.htole32 0 = 0 := by cases h <;> rfl
  have hres : h.htole32 RESERVED_DNO = RESERVED_DNO := by cases h <;> rfl
  have hwords : rootWords h uid gid = (rootInode uid gid).words.map h.htole32 := by
    simp only [rootWords, Yaf_Inode.words, rootInode, List.map_cons, List.map_nil, hzero, hres]
    rfl
  rw [hwords, Yaf_Inode.writeSlot]
  exact h.bytes_map_htole32 _ _ hx

/-- The writes of a machine that reads the counts `sb` from its superblock. -/
theorem map_performed (h : Host) (bnr : ℕ) (uid gid : UInt32) :
    (performed h bnr uid gid).map bytesOf =
      (Mkfs.write_superblock (counts bnr) ++ Mkfs.write_inode_bitmap ((restored bnr).sb h) ++
        Mkfs.write_data_bitmap ((restored bnr).sb h) ++
        Mkfs.write_inode_blocks ((restored bnr).sb h) uid gid).map bytesOf := by
  have hsuper : bytesOf ⟨0, YAF_BLOCK_SIZE, (converted h bnr).bytes h⟩ =
      bytesOf ⟨BID_SB_MIN (counts bnr) * YAF_BLOCK_SIZE, YAF_BLOCK_SIZE,
        superblock (counts bnr)⟩ := by
    rw [BID_SB_MIN_eq, Nat.zero_mul]
    exact bytesOf_congr rfl rfl fun o _ => bytes_converted h bnr o
  have hroot : ∀ off, bytesOf ⟨off, YAF_INODE_SIZE, h.bytes (rootWords h uid gid)⟩ =
      bytesOf ⟨off, YAF_INODE_SIZE, (rootInode uid gid).writeSlot (fun _ => 0) 0⟩ :=
    fun off => bytesOf_congr rfl rfl fun o ho => bytes_rootWords h uid gid ho
  simp only [performed_eq, volume, Mkfs.write_superblock, Mkfs.write_inode_blocks, List.map_append,
    List.map_cons, List.map_nil, hsuper, hroot]

/-- **On a little-endian machine the tool performs the writes of `Yaf.Mkfs`.** -/
theorem performed_little (bnr : ℕ) (uid gid : UInt32) :
    (performed .little bnr uid gid).map bytesOf = (Mkfs.writes bnr uid gid).map bytesOf := by
  obtain ⟨h₁, h₂, h₃, h₄⟩ := counts_lt bnr
  have hsb : (restored bnr).sb .little = counts bnr := by
    simp only [Yaf_Superblock.sb, restored, Host.le32toh, UInt32.toNat_ofNat_of_lt' h₁,
      UInt32.toNat_ofNat_of_lt' h₂, UInt32.toNat_ofNat_of_lt' h₃, UInt32.toNat_ofNat_of_lt' h₄]
  rw [map_performed, hsb, Mkfs.writes]

/-- Of the counts, only the sizes of the bitmaps decide where something is written. -/
theorem map_performed_congr (bnr : ℕ) (uid gid : UInt32)
    (hi : ((restored bnr).sb .big).nr_ibp = ((restored bnr).sb .little).nr_ibp)
    (hd : ((restored bnr).sb .big).nr_dbp = ((restored bnr).sb .little).nr_dbp) :
    (performed .big bnr uid gid).map bytesOf = (performed .little bnr uid gid).map bytesOf := by
  simp only [map_performed, Mkfs.write_inode_bitmap, Mkfs.write_data_bitmap,
    Mkfs.write_inode_blocks, BID_IBP_MIN_eq, BID_DBP_MIN_eq, IDXI2BID_eq, INO2BID_eq, INO2BOFF_eq,
    hi, hd]

/-- The root inode is the only thing written at byte 64 of a block. -/
theorem off_of_mod {h : Host} {bnr : ℕ} {uid gid : UInt32} {p : ℕ × List UInt8}
    (hp : p ∈ (performed h bnr uid gid).map bytesOf) (hmod : p.1 % 4096 = 64) :
    p.1 = (1 + ((restored bnr).sb h).nr_ibp + ((restored bnr).sb h).nr_dbp) * 4096 + 64 := by
  rw [map_performed, List.mem_map] at hp
  obtain ⟨x, hx, rfl⟩ := hp
  simp only [Mkfs.write_superblock, Mkfs.write_inode_bitmap, Mkfs.write_data_bitmap,
    Mkfs.write_inode_blocks, List.mem_append, List.mem_singleton, List.mem_map] at hx
  change x.off % 4096 = 64 at hmod
  change x.off = _
  obtain ((rfl | ⟨i, -, rfl⟩ | rfl) | ⟨i, -, rfl⟩) | rfl := hx
  · simp only [YAF_BLOCK_SIZE_eq] at hmod
    omega
  · simp only [YAF_BLOCK_SIZE_eq] at hmod
    omega
  · simp only [YAF_BLOCK_SIZE_eq, IDX2BKOFF_eq] at hmod
    omega
  · simp only [YAF_BLOCK_SIZE_eq] at hmod
    omega
  · simp only [INO2BID_eq]
    rfl

theorem root_mem_performed (h : Host) (bnr : ℕ) (uid gid : UInt32) :
    ∃ p ∈ (performed h bnr uid gid).map bytesOf,
      p.1 = (1 + ((restored bnr).sb h).nr_ibp + ((restored bnr).sb h).nr_dbp) * 4096 + 64 := by
  rw [map_performed]
  refine ⟨_, List.mem_map_of_mem (List.mem_append_right _ List.mem_cons_self), ?_⟩
  simp only [bytesOf, INO2BID_eq]
  rfl

section ByteOrder

variable {bnr : ℕ} (h₁ : 64 ≤ bnr) (h₂ : bnr < 2 ^ 32)

include h₁ h₂

/-- The sizes of the bitmaps as both machines read them. -/
theorem nr_bp_restored : ∃ p, bnr / 64 * 64 ≤ p * 32768 ∧ p * 32768 < bnr / 64 * 64 + 32768 ∧
    (∀ h : Host, ((restored bnr).sb h).nr_dbp = ((restored bnr).sb h).nr_ibp) ∧
    ((restored bnr).sb .little).nr_ibp = p ∧
    ((restored bnr).sb .big).nr_ibp = p % 256 * 16777216 + p / 256 % 256 * 65536 +
      p / 65536 % 256 * 256 + p / 16777216 % 256 := by
  obtain ⟨p, q, rfl, hp₁, hp₂, hc⟩ := counts_eq h₁ h₂
  have hp : (UInt32.ofNat p).toNat = p := UInt32.toNat_ofNat_of_lt' (by rw [UInt32.size]; omega)
  refine ⟨p, hp₁, hp₂, fun h => ?_, ?_, ?_⟩
  · simp only [Yaf_Superblock.sb, restored, hc]
  · simp only [Yaf_Superblock.sb, restored, hc, Host.le32toh, hp]
  · simp only [Yaf_Superblock.sb, restored, hc, Host.le32toh, Mem.toNat_bswap32, hp]

theorem bnr_of_same {uid gid : UInt32}
    (hsame : SameWrites (performed .big bnr uid gid) (performed .little bnr uid gid)) :
    65791 * 32768 < bnr / 64 * 64 ∧ bnr / 64 * 64 ≤ 65792 * 32768 := by
  obtain ⟨p, hp₁, hp₂, hd, hl, hb⟩ := nr_bp_restored h₁ h₂
  obtain ⟨x, hx, hoff⟩ := root_mem_performed .little bnr uid gid
  have hbig := off_of_mod ((hsame x).2 hx) (by rw [hoff]; omega)
  rw [hoff, hd, hd, hl, hb] at hbig
  have hle : p ≤ 131072 := by omega
  have hlow : p % 256 = 0 := by omega
  have hhigh : p / 16777216 % 256 = 0 := by omega
  -- the two bytes in the middle are equal
  have hmid : p / 256 % 256 = p / 65536 % 256 := by omega
  have hp : p = 65792 := by omega
  omega

/-- **Both byte orders make the same volume exactly when the bitmaps have 65792 blocks each**: that
number is read the same from either end. -/
theorem performed_iff (uid gid : UInt32) :
    SameWrites (performed .big bnr uid gid) (performed .little bnr uid gid) ↔
      65791 * 32768 < bnr / 64 * 64 ∧ bnr / 64 * 64 ≤ 65792 * 32768 := by
  refine ⟨bnr_of_same h₁ h₂, fun hbnr x => ?_⟩
  obtain ⟨p, hp₁, hp₂, hd, hl, hb⟩ := nr_bp_restored h₁ h₂
  obtain rfl : p = 65792 := by omega
  have hi : ((restored bnr).sb .big).nr_ibp = ((restored bnr).sb .little).nr_ibp := by
    rw [hl, hb]
  rw [map_performed_congr bnr uid gid hi (by rw [hd, hd, hi])]

end ByteOrder

theorem performed_same :
    SameWrites (performed .big 2155872256 0 0) (performed .little 2155872256 0 0) :=
  (performed_iff (by decide) (by decide) 0 0).2 ⟨by decide, by decide⟩

/-- **On 64 blocks the two byte orders make different volumes**: a big-endian machine looks for the
root inode behind 2 ^ 25 blocks of bitmaps. -/
theorem not_performed_small : ¬SameWrites (performed .big 64 0 0) (performed .little 64 0 0) := by
  intro hsame
  exact absurd (bnr_of_same le_rfl (by decide) hsame).1 (by decide)

end Yaf.Tool
