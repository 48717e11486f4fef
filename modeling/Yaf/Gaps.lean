/-
**What a file holds where nothing was written.**

A write past the end of a file makes the bytes in between part of the file.  The driver takes their
blocks from the pool as they are, so these bytes read as whatever the blocks held before.  They read
as zero exactly as far as the blocks held zeros there.

Main definitions:

* `Yaf.World.blockFor` — the block that a write gives to an entry of a block map;
* `Yaf.Op.exposes` — **whether a write exposes old contents of a block**.

Main results:

* `Yaf.Mirrors.learn` — what is found on the device may be known;
* `Yaf.zero_of_run` — **what was not written reads as zero** where no write exposed anything;
* `Yaf.not_zero_used` — the bytes of an earlier use of the device are read.
-/

import Yaf.Contents

set_option relaxedAutoImplicit false
set_option autoImplicit false

namespace Yaf

open Prog

variable {w w' : World} {s s' : Namespace}

/-! ### Exposed bytes -/

namespace World

/-- The block that entry `k` of a block map has after a write that reaches it: the one it has, or
one of the first that are free. -/
def blockFor (w : World) (i : Inode) (k : ℕ) : ℕ :=
  let dbnr := countAssigned i YAF_IBLOCKS 0
  if k < dbnr then (i.blk k).toNat else (Mem.clears w.dbit 32768).getD (k - dbnr) 0

/-- The block is on the device, and holds a zero at the given place. -/
def holdsZero (w : World) (d off : ℕ) : Bool :=
  decide (DNO2BID w.sb d < w.nblk) && w.disk (DNO2BID w.sb d) off == 0

end World

/-- **Whether a write exposes old contents of a block**: it is accepted, and between the end of the
file and its first byte there is one that is not a zero on the device. -/
def Op.exposes (w : World) : Op → Bool
  | .write n pos data _ =>
      match w.inode? n with
      | some i => decide (pos + data.length ≤ MAX_FILESIZE) &&
          decide (DNO2BID w.sb (w.blockFor i (pos / YAF_BLOCK_SIZE)) < w.nblk) &&
          (List.range' i.i_size (pos - i.i_size)).any fun off =>
            !w.holdsZero (w.blockFor i (off / YAF_BLOCK_SIZE)) (off % YAF_BLOCK_SIZE)
      | none => false
  | _ => false

/-- **The operations that expose nothing.** -/
def Op.Covering (w : World) (op : Op) : Prop := op.Careful w ∧ op.exposes w = false

instance (w : World) (op : Op) : Decidable (op.Covering w) :=
  inferInstanceAs (Decidable (_ ∧ _))

/-! ### What is known -/

/-- **What is found on the device may be known.** -/
theorem Mirrors.learn (h : Mirrors w s) {f : ℕ → ℕ → Option UInt8}
    (hf : ∀ n off b, f n off = some b → s.bytes n off = some b ∨
      (s.Live n ∧ ¬s.IsDir n ∧ off < (s.node n).i_size ∧
        DNO2BID s.sb ((s.node n).blk (off / 4096)).toNat < s.nblk ∧
        w.view.data ((s.node n).blk (off / 4096)).toNat (off % 4096) = b)) :
    Mirrors w { s with bytes := f } := by
  refine ⟨⟨h.toTracks.learn f, h.shows, fun n off b hb => ?_⟩, h.inv.learn fun n off b hb => ?_⟩
  · rcases hf n off b hb with hold | ⟨-, -, -, -, hnew⟩
    · exact h.stores n off b hold
    · exact hnew
  · rcases hf n off b hb with hold | ⟨hn, hd, hoff, hdev, -⟩
    · exact h.inv.known n off b hold
    · exact ⟨hn, hd, hoff, hdev⟩

/-- **The tree knows every byte of the files**: what the log has written, and zeros elsewhere. -/
structure Namespace.Knows (s : Namespace) (m : Contents) : Prop where
  inside : ∀ n, s.Live n → ¬s.IsDir n → ∀ off < (s.node n).i_size,
    s.bytes n off = some ((m n off).getD 0)
  outside : ∀ n, s.Live n → ¬s.IsDir n → ∀ off, (s.node n).i_size ≤ off → m n off = none

namespace Namespace.Knows

variable {m : Contents}

/-- **Steps that do not write** keep what is known. -/
theorem step (h : s.Knows m) (hinv : s.Inv) {op : Op} (hpre : s.Pre op)
    (hop : Namespace.writes op = false) {r : Reply} (hs : s.step op = some (r, s')) :
    s'.Knows (record m (op, r)) := by
  constructor
  · intro n hn hf off hoff
    rcases hinv.file_step hpre hop hs hn (.inr hf) with ⟨hkeep, hrec⟩ | ⟨hnew, hrec⟩
    · rw [size_congr hkeep.attrs] at hoff
      rw [hkeep.bytes, hrec]
      exact h.inside n hkeep.live (fun hd => hf (hkeep.isDir_iff.2 hd)) off hoff
    · rw [hnew.size] at hoff
      exact absurd hoff (Nat.not_lt_zero off)
  · intro n hn hf off hoff
    rcases hinv.file_step hpre hop hs hn (.inr hf) with ⟨hkeep, hrec⟩ | ⟨-, hrec⟩
    · rw [size_congr hkeep.attrs] at hoff
      rw [hrec]
      exact h.outside n hkeep.live (fun hd => hf (hkeep.isDir_iff.2 hd)) off hoff
    · rw [hrec]

/-- More blocks for a file are no more bytes. -/
theorem grown (h : s.Knows m) {n k l : ℕ} (hg : Namespace.Grown s n k l s') : s'.Knows m := by
  have hnode : ∀ x, (s'.node x).i_mode = (s.node x).i_mode ∧
      (s'.node x).i_size = (s.node x).i_size := by
    intro x
    by_cases hx : x = n
    · rw [hx, hg.attrs]
      exact ⟨rfl, rfl⟩
    · have hother : s'.node x = s.node x := by
        rw [hg.same]
        exact Function.update_of_ne hx _ _
      rw [hother]
      exact ⟨rfl, rfl⟩
  have hlive : ∀ x, s'.Live x ↔ s.Live x := by
    intro x
    rw [hg.same]
    rfl
  have hbytes : s'.bytes = s.bytes := by rw [hg.same]
  have hdir : ∀ x, s'.IsDir x ↔ s.IsDir x := by
    intro x
    rw [Namespace.IsDir, Namespace.IsDir, (hnode x).1]
  constructor
  · intro x hx hf off hoff
    rw [(hnode x).2] at hoff
    rw [hbytes]
    exact h.inside x ((hlive x).1 hx) (fun hd => hf ((hdir x).2 hd)) off hoff
  · intro x hx hf off hoff
    rw [(hnode x).2] at hoff
    exact h.outside x ((hlive x).1 hx) (fun hd => hf ((hdir x).2 hd)) off hoff

/-- **A write that succeeds**, when the bytes before it are known to be zeros. -/
theorem store (h : s.Knows m) {n pos copied : ℕ} {data : List UInt8} (hn : s.Live n)
    (hf : ¬s.IsDir n) (hw : Namespace.Wrote s n pos data copied s')
    (hsize : (s'.node n).i_size = max (s.node n).i_size (pos + copied)) :
    ({ s' with bytes := fun x off =>
      if x = n ∧ (s.node n).i_size ≤ off ∧ off < pos then some 0
      else s'.bytes x off } : Namespace).Knows
        (record m (.write n pos data copied, ((copied : ℤ), none))) := by
  have hother : ∀ x, x ≠ n → s'.Live x → ¬s'.IsDir x → s.Live x ∧ ¬s.IsDir x := by
    intro x hne hx hfx
    rw [Namespace.Live, hw.iset] at hx
    rw [Namespace.IsDir, hw.other x hne] at hfx
    exact ⟨hx, hfx⟩
  constructor
  · intro x hx hfx off hoff
    rw [record_write, Int.toNat_natCast]
    dsimp only at hoff ⊢
    rw [hw.bytes, Int.toNat_natCast]
    by_cases hxn : x = n
    · subst x
      rw [hsize] at hoff
      simp only [true_and]
      split
      · -- between the old end and what is written
        rename_i hgap
        rw [if_neg (by omega), h.outside n hn hf off hgap.1]
        rfl
      · split
        · rfl
        · exact h.inside n hn hf off (by omega)
    · obtain ⟨hx', hfx'⟩ := hother x hxn hx hfx
      rw [hw.other x hxn] at hoff
      simp only [hxn, false_and, if_false]
      exact h.inside x hx' hfx' off hoff
  · intro x hx hfx off hoff
    rw [record_write, Int.toNat_natCast]
    dsimp only at hoff ⊢
    by_cases hxn : x = n
    · subst x
      rw [hsize] at hoff
      rw [if_neg (by omega)]
      exact h.outside n hn hf off (by omega)
    · obtain ⟨hx', hfx'⟩ := hother x hxn hx hfx
      rw [hw.other x hxn] at hoff
      rw [if_neg fun hno => hxn hno.1]
      exact h.outside x hx' hfx' off hoff

end Namespace.Knows

/-- A write that fails is not recorded. -/
theorem record_write_failed (m : Contents) (n pos : ℕ) (data : List UInt8) (copied : ℕ) {r : Reply}
    (hr : r.1 < 0) : record m (.write n pos data copied, r) = m := by
  have hzero : r.1.toNat = 0 := Int.toNat_of_nonpos (Int.le_of_lt hr)
  funext x off
  rw [record_write, hzero, if_neg (by omega)]

/-! ### Writes -/

/-- The bytes between the end of the file and the first one that is written are zeros. -/
theorem holdsZero_of_exposes {n pos copied : ℕ} {data : List UInt8} {i : Inode}
    (hi : w.inode? n = some i) (hex : (Op.write n pos data copied).exposes w = false)
    (hle : pos + data.length ≤ 32768) (hdev : DNO2BID w.sb (w.blockFor i (pos / 4096)) < w.nblk)
    {off : ℕ} (hoff : i.i_size ≤ off) (hlt : off < pos) :
    DNO2BID w.sb (w.blockFor i (off / 4096)) < w.nblk ∧
      w.view.data (w.blockFor i (off / 4096)) (off % 4096) = 0 := by
  simp only [Op.exposes, hi, MAX_FILESIZE_eq, YAF_BLOCK_SIZE_eq] at hex
  rw [decide_eq_true hle, decide_eq_true hdev, Bool.true_and, Bool.true_and,
    List.any_eq_false] at hex
  have hzero := hex off (by rw [List.mem_range'_1]; omega)
  rw [Bool.not_eq_true', Bool.not_eq_false, World.holdsZero, Bool.and_eq_true, decide_eq_true_eq,
    beq_iff_eq] at hzero
  exact hzero

/-- The blocks that a write gives to a file. -/
theorem Mirrors.blk_grown (h : Mirrors w s) {s₁ : Namespace} {n k : ℕ}
    (hg : Namespace.Grown s n (k + 1 - countAssigned (s.node n) YAF_IBLOCKS 0)
      (countAssigned (s.node n) YAF_IBLOCKS 0) s₁) {j : ℕ} (hj : j ≤ k) :
    ((s₁.node n).blk j).toNat = w.blockFor (s.node n) j := by
  have hclears : Mem.clears w.dbit 32768 = Mem.clears s.dset 32768 := by
    rw [h.held.clears_dbit, h.dset]
  have hlen := hg.len
  rw [World.blockFor, hclears]
  split
  · rw [hg.old j ‹_›]
  · obtain ⟨t, ht⟩ := Nat.exists_eq_add_of_le (Nat.le_of_not_lt ‹_›)
    subst ht
    rw [hg.new t (by omega), Nat.add_sub_cancel_left, List.getD_eq_getElem _ _ (by omega)]
    exact (Namespace.ofNat_clear (Mem.mem_clears.1 (List.getElem_mem _)).1).1

/-- **A write that exposes nothing** leaves every byte known. -/
theorem Mirrors.write_knows (h : Mirrors w s) {m : Contents} (hk : s.Knows m) {n pos copied : ℕ}
    {data : List UInt8} (hop : (Op.write n pos data copied).Covering w) :
    wp (Yaf.step (.write n pos data copied)) (fun r w' => ∃ s', Mirrors w' s' ∧
      s'.Knows (record m (.write n pos data copied, r))) (fun _ => True) w := by
  obtain ⟨hcare, hex⟩ := hop
  obtain ⟨hreg, hlen, -⟩ := h.careful_pre hcare
  have hlive := h.inv.core n hreg.1
  have hf : ¬s.IsDir n := hreg.not_isDir
  have hi := h.inode? hreg.1
  refine wp_mono (wp_and (h.step hcare) (wp_write_data hi h.held.layout hlen)) ?_ fun _ _ => trivial
  rintro r w' ⟨⟨s', hs, h'⟩, hsb, hd⟩
  have hw := h.inv.wrote hlive hf hlen hs
  obtain ⟨rfl, rfl⟩ | ⟨hle, s₁, hgrown, hblk, ⟨hdev, rfl, rfl⟩ | ⟨-, rfl, rfl⟩⟩ :=
    h.inv.write_cases hlive hf hlen hs
  · refine ⟨s', h', ?_⟩
    rw [record_write_failed m n pos data copied (by decide)]
    exact hk
  · -- the file after the write
    obtain ⟨-, hsize, hblk', hsb', hnblk'⟩ := s₁.store_same n pos data copied
    have hconsts : s₁.sb = s.sb ∧ s₁.nblk = s.nblk := by
      rw [hgrown.same]
      exact ⟨rfl, rfl⟩
    have hsize₁ : (s₁.node n).i_size = (s.node n).i_size := by rw [hgrown.attrs]
    rw [hsize₁] at hsize
    set s' := s₁.store n pos data copied with hs'
    have hlive' : s'.Live n := by
      rw [Namespace.Live, hw.iset]
      exact hlive
    have hf' : ¬s'.IsDir n := by
      rw [Namespace.IsDir, hw.mode]
      exact hf
    have hentry : ∀ k ≤ pos / 4096, ((s'.node n).blk k).toNat = w.blockFor (s.node n) k := by
      intro k hk
      rw [hblk']
      exact h.blk_grown hgrown hk
    have hgap : ∀ off, (s.node n).i_size ≤ off → off < pos →
        DNO2BID w.sb (w.blockFor (s.node n) (off / 4096)) < w.nblk ∧
          w.view.data (w.blockFor (s.node n) (off / 4096)) (off % 4096) = 0 := by
      intro off hoff hlt
      refine holdsZero_of_exposes hi hex hle ?_ hoff hlt
      rw [← hentry _ le_rfl, hblk', h.sb, h.nblk]
      exact hdev
    -- the write leaves the bytes before it as they were
    have hdata : ∀ off < pos, w'.view.data ((s'.node n).blk (off / 4096)).toNat (off % 4096) =
        w.view.data ((s'.node n).blk (off / 4096)).toNat (off % 4096) := by
      intro off hlt
      rcases hd with ⟨hneg, -⟩ | ⟨j, hj, hd⟩
      · exact absurd hneg (Int.not_lt.2 (Int.natCast_nonneg copied))
      · obtain rfl : j = s'.node n := by
          have hlog := h'.logical hlive'
          rw [World.logical, hj] at hlog
          exact hlog
        rw [hd, Function.update_apply]
        split
        · rename_i he
          have hres : (s'.node n).blk (off / 4096) ≠ RESERVED_DNO := by
            rw [hblk']
            exact hblk _ (by omega)
          have hpage := (h'.inv.sole n n _ _ hlive' hlive' hres (UInt32.toNat_inj.1 he)).2
          rw [storeBytes, if_neg (by omega), he]
        · rfl
    refine ⟨_, h'.learn fun x off b hb => ?_, hk.store hlive hf hw hsize⟩
    split at hb
    · rename_i hin
      obtain ⟨rfl, hoff, hlt⟩ := hin
      obtain ⟨hdev', hzero⟩ := hgap off hoff hlt
      have hk : off / 4096 ≤ pos / 4096 := Nat.div_le_div_right (Nat.le_of_lt hlt)
      refine .inr ⟨hlive', hf', ?_, ?_, ?_⟩
      · rw [hsize]
        omega
      · rw [hentry _ hk, hsb', hnblk', hconsts.1, hconsts.2, ← h.sb, ← h.nblk]
        exact hdev'
      · rw [hdata off hlt, hentry _ hk, hzero]
        exact Option.some.inj hb
    · exact .inl hb
  · refine ⟨s', h', ?_⟩
    rw [record_write_failed m n pos data copied (by decide)]
    exact hk.grown hgrown

/-! ### Runs -/

/-- Every state of a run that exposes nothing stands for a tree that knows every byte. -/
theorem exists_knows_of_run {v : Volume} (h : v.Ok) {l : List (Op × Reply)}
    (hrun : Run step (fun w op => op.Covering w) (fresh v) l w) :
    ∃ s, Mirrors w s ∧ s.Knows (written l) := by
  rw [Volume.fresh_eq h] at hrun
  induction hrun with
  | nil =>
      refine ⟨v.tree, (Volume.models h).toMirrors, fun n _ hf => absurd ?_ hf, fun n _ hf => absurd ?_ hf⟩
      · exact (by decide : S_ISDIR (UInt32.toUInt16 0o040777) = true)
      · exact (by decide : S_ISDIR (UInt32.toUInt16 0o040777) = true)
  | @snoc l w w' op r _ hop hr ih =>
      obtain ⟨s, hs, hk⟩ := ih
      rw [written_snoc]
      by_cases hw : Namespace.writes op = true
      · cases op with
        | write n pos data copied => exact (hs.write_knows hk hop).ok hr
        | _ => simp [Namespace.writes] at hw
      · obtain ⟨s', hstep, hs'⟩ := (hs.step hop.1).ok hr
        have hpre := hs.careful_pre hop.1
        exact ⟨s', hs', hk.step hs.inv hpre (Bool.eq_false_of_not_eq_true hw) hstep⟩

/-- **What was not written reads as zero**, in every state of a run in which no write exposes old
contents of a block: reading an offset below the size of a file that no write has covered since the
file was created gives zero. -/
theorem zero_of_run {v : Volume} (h : v.Ok) {l : List (Op × Reply)}
    (hrun : Run step (fun w op => op.Covering w) (fresh v) l w) {n off : ℕ} (hn : w.Live n)
    (hf : S_ISDIR (w.logical n).i_mode = false) (hoff : off < (w.logical n).i_size)
    (hnone : written l n off = none) : value (vfs_read n off) (w.hold n) = .ok (.ok (some 0)) := by
  obtain ⟨s, hs, hk⟩ := exists_knows_of_run h hrun
  have hlive := hs.live_iff.1 hn
  rw [hs.logical hlive] at hf hoff
  have hfile : ¬s.IsDir n := fun hd => absurd (hd.symm.trans hf) (by decide)
  have hb := hk.inside n hlive hfile off hoff
  rw [hnone] at hb
  exact hs.value_read hb

/-- A gap of two pages that were never used. -/
theorem zero_small : ∃ l w, Run step (fun w op => op.Covering w) (fresh .small) l w ∧
    w.Live 2 ∧ S_ISDIR (w.logical 2).i_mode = false ∧ (w.logical 2).i_size = 8193 ∧
    written l 2 17 = none ∧ value (vfs_read 2 17) (w.hold 2) = .ok (.ok (some 0)) := by
  obtain ⟨l, w, hrun, hp⟩ := Volume.exists_run Volume.small_ok (fun w op => op.Covering w)
    [.create 1 (.letters 0) 0, .write 2 5 [1, 2] 2, .write 2 8192 [3] 1]
    (fun l w => w.view.iset 2 && !S_ISDIR (w.logical 2).i_mode &&
      decide ((w.logical 2).i_size = 8193) && decide (written l 2 17 = none)) (by decide +kernel)
  rw [Bool.and_eq_true, Bool.and_eq_true, Bool.and_eq_true, Bool.not_eq_true', decide_eq_true_eq,
    decide_eq_true_eq] at hp
  obtain ⟨⟨⟨hset, hf⟩, hsize⟩, hnone⟩ := hp
  have hlive : w.Live 2 := ⟨hset, by decide⟩
  exact ⟨l, w, hrun, hlive, hf, hsize, hnone,
    zero_of_run Volume.small_ok hrun hlive hf (by rw [hsize]; decide) hnone⟩

/-- A device of zeros but for its data blocks, which hold the bytes of an earlier use. -/
def Volume.used : Volume := { Volume.small with old := fun bid _ => if 4 ≤ bid then 65 else 0 }

theorem Volume.used_ok : Volume.used.Ok := ⟨le_rfl, by decide⟩

/-- **The bytes of an earlier use of the device are read**: the first byte of a new file is below
the first one that is written. -/
theorem not_zero_used : ∃ l w, Run step (fun w op => op.Careful w) (fresh .used) l w ∧
    w.Live 2 ∧ S_ISDIR (w.logical 2).i_mode = false ∧ 0 < (w.logical 2).i_size ∧
    written l 2 0 = none ∧ value (vfs_read 2 0) (w.hold 2) = .ok (.ok (some 65)) := by
  obtain ⟨l, w, hrun, hp⟩ := Volume.exists_run Volume.used_ok (fun w op => op.Careful w)
    [.create 1 (.letters 0) 0, .write 2 1 [66] 1]
    (fun l w => w.view.iset 2 && !S_ISDIR (w.logical 2).i_mode &&
      decide (0 < (w.logical 2).i_size) && decide (written l 2 0 = none) &&
        decide (value (vfs_read 2 0) (w.hold 2) = .ok (.ok (some 65)))) (by decide +kernel)
  rw [Bool.and_eq_true, Bool.and_eq_true, Bool.and_eq_true, Bool.and_eq_true, Bool.not_eq_true',
    decide_eq_true_eq, decide_eq_true_eq, decide_eq_true_eq] at hp
  obtain ⟨⟨⟨⟨hset, hf⟩, hsize⟩, hnone⟩, hread⟩ := hp
  exact ⟨l, w, hrun, ⟨hset, by decide⟩, hf, hsize, hnone, hread⟩

end Yaf
