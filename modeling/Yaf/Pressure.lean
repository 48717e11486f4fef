/-
**The bitmaps under memory pressure** (`driver/bitmap.c`).

`Yaf.Bitmap` has one copy of each block.  Here the four functions that change a bitmap are code
over a buffer cache, in which every access of the source to a buffer is an action of its own and
the kernel may drop buffers between any two of them.  Two of the functions differ in one point:
`yaf_get_free_inode` marks its buffer dirty before it gives it back, `yaf_get_free_dblock` after.

Main definitions:

* `Yaf.Pressure.Call`, `Yaf.Pressure.Call.code` — the four functions;
* `Yaf.Pressure.Call.names` — the bit a result stands for, and its value;
* `Yaf.Pressure.Kept` — a returned index was taken by its call, and is shown until it is changed
  again;
* `Yaf.Pressure.denote` — the code on a cache that drops nothing.

Main results:

* `Yaf.Pressure.wp_denote_code` — that is what `Yaf.Bitmap` has;
* `Yaf.Pressure.kept_of_reaches` — **allocations are kept**, when no buffer is dropped between the
  two last actions of `yaf_get_free_dblock`;
* `Yaf.Pressure.not_kept_dropped` — one that is dropped there loses its bit.
-/

import Yaf.Bitmap
import Yaf.Lib.Cache

set_option relaxedAutoImplicit false
set_option autoImplicit false

namespace Yaf.Pressure

open Prog Cache

/-! ### The functions -/

/-- `yaf_get_free_bit`: `rem` bits are left to try, the next one is `nr`. -/
def yaf_get_free_bit : ℕ → ℕ → (ℤ → Code UInt32) → Code UInt32
  | 0, _, k => k (-ENOENT)
  | rem + 1, nr, k =>
      .test_and_set_bit nr fun old => if old then yaf_get_free_bit rem (nr + 1) k else k nr

/-- `yaf_put_bit`. -/
def yaf_put_bit (nr : ℕ) (k : Code UInt32) : Code UInt32 :=
  .test_and_clear_bit nr fun old => if old then k else .panic

/-- The loop over the blocks of a bitmap section; `finish` is what happens to the buffer of the
block the search ended in. -/
def getFreeIdx (min : ℕ) (noRead full : UInt32) (finish : Code UInt32 → Code UInt32) :
    ℕ → ℕ → Code UInt32
  | 0, _ => .ret full
  | rem + 1, bid =>
      .sb_bread bid fun bh =>
        if bh then
          yaf_get_free_bit BITS_PER_BLOCK 0 fun r =>
            let res := UInt32.ofInt r
            if res ≥ 0 then finish (.ret (UInt32.ofNat (res.toNat + (bid - min) * BITS_PER_BLOCK)))
            else .brelse (getFreeIdx min noRead full finish rem (bid + 1))
        else .ret noRead

/-- Releasing an index whose bit lies in block `bid`.  The functions return nothing. -/
def putIdx (bid idx : ℕ) : Code UInt32 :=
  .sb_bread bid fun bh =>
    if bh then yaf_put_bit (idx % BITS_PER_BLOCK) (.mark_buffer_dirty (.brelse (.ret 0)))
    else .panic

/-- A call of one of the functions. -/
inductive Call where
  | get_free_inode
  | put_inode (ino : ℕ)
  | get_free_dblock
  | put_dblock (dno : UInt32)

/-- **The code of a call.** -/
def Call.code (sb : Yaf_Sb_Info) : Call → Code UInt32
  | .get_free_inode =>
      getFreeIdx (BID_IBP_MIN sb) RESERVED_INO RESERVED_INO (fun k => .mark_buffer_dirty (.brelse k))
        sb.nr_ibp (BID_IBP_MIN sb)
  | .put_inode ino => putIdx (IDXI2BID sb ino) ino
  | .get_free_dblock =>
      getFreeIdx (BID_DBP_MIN sb) RESERVED_INO RESERVED_DNO (fun k => .brelse (.mark_buffer_dirty k))
        sb.nr_dbp (BID_DBP_MIN sb)
  | .put_dblock dno => putIdx (IDXD2BID sb dno.toNat) dno.toNat

/-- The bit that the result `r` of a call stands for, and its value.  A search of a section without
blocks, and one whose first block is full, have results that stand for no bit. -/
def Call.names (sb : Yaf_Sb_Info) : Call → UInt32 → ℕ → ℕ → Bool → Prop
  | .get_free_inode, r, bid, nr, v => (0 < sb.nr_ibp ∧ r ≠ NO_BIT) ∧
      bid = IDXI2BID sb r.toNat ∧ nr = r.toNat % BITS_PER_BLOCK ∧ v = true
  | .put_inode ino, _, bid, nr, v =>
      bid = IDXI2BID sb ino ∧ nr = ino % BITS_PER_BLOCK ∧ v = false
  | .get_free_dblock, r, bid, nr, v => (0 < sb.nr_dbp ∧ r ≠ NO_BIT) ∧
      bid = IDXD2BID sb r.toNat ∧ nr = r.toNat % BITS_PER_BLOCK ∧ v = true
  | .put_dblock dno, _, bid, nr, v =>
      bid = IDXD2BID sb dno.toNat ∧ nr = dno.toNat % BITS_PER_BLOCK ∧ v = false

/-- A result stands for one bit. -/
theorem Call.names_unique {sb : Yaf_Sb_Info} {c : Call} {r : UInt32} {bid bid' nr nr' : ℕ}
    {v v' : Bool} (h : c.names sb r bid nr v) (h' : c.names sb r bid' nr' v') :
    bid = bid' ∧ nr = nr' ∧ v = v' := by
  cases c with
  | get_free_inode | get_free_dblock =>
      obtain ⟨-, rfl, rfl, rfl⟩ := h
      obtain ⟨-, rfl, rfl, rfl⟩ := h'
      exact ⟨rfl, rfl, rfl⟩
  | put_inode | put_dblock =>
      obtain ⟨rfl, rfl, rfl⟩ := h
      obtain ⟨rfl, rfl, rfl⟩ := h'
      exact ⟨rfl, rfl, rfl⟩

/-! ### One copy of each block -/

/-- The code of a call on a cache that drops nothing; `bh` is the block of its buffer. -/
def denote : Code UInt32 → Option ℕ → Driver UInt32
  | .sb_bread bid k, _ => do
      if ← sb_bread .bitmap bid then denote (k true) (some bid) else denote (k false) none
  | .test_and_set_bit nr k, some bid => do
      let b ← bData bid
      if Mem.testBit b nr then denote (k true) (some bid)
      else do
        modifyBuf bid fun b => Mem.setBit b nr
        denote (k false) (some bid)
  | .test_and_clear_bit nr k, some bid => do
      let b ← bData bid
      if Mem.testBit b nr then do
        modifyBuf bid fun b => Mem.clearBit b nr
        denote (k true) (some bid)
      else denote (k false) (some bid)
  | .mark_buffer_dirty k, bh => denote k bh
  | .brelse k, bh => denote k bh
  | .ret r, _ => pure r
  | .panic, _ | .test_and_set_bit _ _, none | .test_and_clear_bit _ _, none => throw .panic

/-- The functions of `Yaf.Bitmap`. -/
def Call.driver : Call → Driver UInt32
  | .get_free_inode => yaf_get_free_inode
  | .put_inode ino => do
      yaf_put_inode ino
      pure 0
  | .get_free_dblock => yaf_get_free_dblock
  | .put_dblock dno => do
      yaf_put_dblock dno
      pure 0

section Denote

variable {w : World} {Q : UInt32 → World → Prop} {E : Fault → Prop}

theorem wp_denote_get_free_bit (bid : ℕ) (k : ℤ → Code UInt32) (rem nr : ℕ) :
    wp (denote (yaf_get_free_bit rem nr k) (some bid)) Q E w ↔
      wp (denote (k (getFreeBitFrom (w.disk bid) rem nr).1) (some bid)) Q E
        (w.setBlock bid (getFreeBitFrom (w.disk bid) rem nr).2) := by
  induction rem generalizing nr with
  | zero => rw [yaf_get_free_bit, getFreeBitFrom, World.setBlock_disk]
  | succ rem ih =>
      rw [yaf_get_free_bit, denote, wp_bind, wp_bData, getFreeBitFrom]
      cases Mem.testBit (w.disk bid) nr with
      | true => exact ih (nr + 1)
      | false =>
          simp only [Bool.false_eq_true, if_false]
          rw [wp_bind, wp_modifyBuf]

theorem wp_denote_getFreeIdx (min : ℕ) (noRead full : UInt32) {finish : Code UInt32 → Code UInt32}
    (hfinish : ∀ r bh, denote (finish (.ret r)) bh = pure r) (rem bid : ℕ) :
    wp (denote (getFreeIdx min noRead full finish rem bid) none) Q E w ↔
      wp (Yaf.getFreeIdx min noRead full rem bid) Q E w := by
  cases rem with
  | zero => rfl
  | succ rem =>
      have hres : ∀ r : UInt32, r ≥ 0 := fun _ => UInt32.zero_le
      rw [getFreeIdx, denote, Yaf.getFreeIdx, wp_bind, wp_sb_bread, wp_bind, wp_sb_bread]
      cases w.readable .bitmap bid with
      | true =>
          simp only [if_true, wp_denote_get_free_bit, wp_bind, wp_bData, wp_modifyBuf,
            if_pos (hres _), hfinish]
          rw [Yaf.yaf_get_free_bit]
      | false => rfl

theorem wp_denote_putIdx (bid idx : ℕ) : wp (denote (putIdx bid idx) none) Q E w ↔
    wp (Yaf.putIdx bid idx) (fun _ w' => Q 0 w') E w := by
  rw [putIdx, denote, wp_bind, wp_sb_bread, wp_putIdx]
  cases w.readable .bitmap bid with
  | true =>
      simp only [if_true, yaf_put_bit, denote, wp_bind, wp_bData, true_and]
      rw [BITS_PER_BLOCK_eq]
      cases Mem.testBit (w.disk bid) (idx % 32768) with
      | true =>
          simp only [if_true]
          rw [wp_bind, wp_modifyBuf, wp_pure]
      | false => rfl
  | false => rfl

/-- **On a cache that drops nothing, a call does what its function does.** -/
theorem wp_denote_code (c : Call) :
    wp (denote (c.code w.sb) none) Q E w ↔ wp c.driver Q E w := by
  cases c with
  | get_free_inode =>
      rw [Call.code, wp_denote_getFreeIdx _ _ _ fun _ _ => rfl, Call.driver, yaf_get_free_inode,
        wp_bind, wp_get]
  | put_inode ino =>
      rw [Call.code, wp_denote_putIdx, Call.driver, wp_bind, yaf_put_inode, wp_bind, wp_get]
      rfl
  | get_free_dblock =>
      rw [Call.code, wp_denote_getFreeIdx _ _ _ fun _ _ => rfl, Call.driver, yaf_get_free_dblock,
        wp_bind, wp_get]
  | put_dblock dno =>
      rw [Call.code, wp_denote_putIdx, Call.driver, wp_bind, yaf_put_dblock, wp_bind, wp_get]
      rfl

end Denote

/-! ### The discipline -/

section Ok

variable {names : UInt32 → ℕ → ℕ → Bool → Prop}

theorem ok_yaf_get_free_bit {bid : ℕ} {k : ℤ → Code UInt32} (rem nr : ℕ)
    (hset : ∀ i < nr + rem, (k i).Ok names (.changed bid i true))
    (hfull : (k (-ENOENT)).Ok names (.held bid)) :
    (yaf_get_free_bit rem nr k).Ok names (.held bid) := by
  induction rem generalizing nr with
  | zero => exact hfull
  | succ rem ih =>
      refine ⟨bid, rfl, ?_, ?_⟩
      · exact ih (nr + 1) fun i hi => hset i (by omega)
      · exact hset nr (by omega)

/-- The search of a section of `n` blocks.  Its loop ends with the first block. -/
theorem ok_getFreeIdx {n min : ℕ} {noRead full : UInt32} {finish : Code UInt32 → Code UInt32}
    (hnames : ∀ r bid nr v, names r bid nr v ↔ (0 < n ∧ r ≠ NO_BIT) ∧
      bid = min + r.toNat / BITS_PER_BLOCK ∧ nr = r.toNat % BITS_PER_BLOCK ∧ v = true)
    (hset : ∀ r nr, names r min nr true → (finish (.ret r)).Ok names (.changed min nr true))
    (hfull : ∀ r, (∀ bid nr v, ¬names r bid nr v) → (finish (.ret r)).Ok names (.held min)) :
    (getFreeIdx min noRead full finish n min).Ok names .idle := by
  cases n with
  | zero =>
      refine .inl ⟨rfl, fun bid nr v hname => ?_⟩
      exact absurd ((hnames _ _ _ _).1 hname).1.1 (lt_irrefl 0)
  | succ rem =>
      have hres : ∀ r : UInt32, r ≥ 0 := fun _ => UInt32.zero_le
      rw [getFreeIdx, Code.ok_sb_bread]
      simp only [if_true, Bool.false_eq_true, if_false, Nat.sub_self, Nat.zero_mul, Nat.add_zero,
        UInt32.ofNat_toNat, if_pos (hres _), Code.ok_ret, true_or, or_true, true_and, and_true]
      refine ok_yaf_get_free_bit _ _ (fun i hi => ?_) (hfull _ fun bid nr v hname => ?_)
      · rw [BITS_PER_BLOCK_eq] at hi
        have hof : (UInt32.ofInt i).toNat = i := by
          simp only [UInt32.ofInt, UInt32.toNat_ofNat']
          omega
        refine hset _ _ ((hnames _ _ _ _).2 ⟨⟨Nat.succ_pos _, fun heq => ?_⟩, ?_, ?_, rfl⟩)
        · have htoNat := congrArg UInt32.toNat heq
          rw [hof, show NO_BIT.toNat = 4294967294 from rfl] at htoNat
          omega
        · rw [hof, BITS_PER_BLOCK_eq]
          omega
        · rw [hof, BITS_PER_BLOCK_eq]
          omega
      · exact ((hnames _ _ _ _).1 hname).1.2 rfl

theorem ok_putIdx {bid idx : ℕ} (hname : names 0 bid (idx % BITS_PER_BLOCK) false) :
    (putIdx bid idx).Ok names .idle := by
  refine ⟨rfl, ⟨bid, rfl, ?_, rfl⟩, rfl⟩
  exact ⟨_, rfl, .inr (.inr ⟨_, _, _, rfl, hname⟩)⟩

end Ok

/-- **The four functions follow the discipline.** -/
theorem ok_code (sb : Yaf_Sb_Info) (c : Call) : (c.code sb).Ok (c.names sb) .idle := by
  cases c with
  | get_free_inode =>
      refine ok_getFreeIdx (fun _ _ _ _ => Iff.rfl) (fun r nr hname => ?_) fun r hnone => ?_
      · exact ⟨_, rfl, .inr (.inr ⟨_, _, _, rfl, hname⟩)⟩
      · exact ⟨_, rfl, .inl ⟨rfl, hnone⟩⟩
  | put_inode ino => exact ok_putIdx ⟨rfl, rfl, rfl⟩
  | get_free_dblock =>
      refine ok_getFreeIdx (fun _ _ _ _ => Iff.rfl) (fun r nr hname => ?_) fun r hnone => ?_
      · exact ⟨_, rfl, .inr (.inr ⟨_, _, _, rfl, hname⟩)⟩
      · exact ⟨_, rfl, .inl ⟨rfl, hnone⟩⟩
  | put_dblock dno => exact ok_putIdx ⟨rfl, rfl, rfl⟩

/-! ### Kept allocations -/

/-- Calls that have not begun, on the volume `sb`. -/
structure Fresh (sb : Yaf_Sb_Info) (calls : ℕ → Call) (s : State UInt32) : Prop where
  tasks : ∀ i, s.tasks i = ⟨(calls i).code sb, none⟩
  saved : ∀ bid b nr, s.cache bid = some b →
    Mem.testBit b.data nr ≠ Mem.testBit (s.disk bid) nr → b.dirty = true
  changes : ∀ bid nr, s.changes bid nr = []

/-- **Returned changes are kept**: the bit that the result of a call stands for was changed by this
call, unless it could not have a buffer; and when the call that was the last to change a bit has
returned, its result stands for this bit, and whoever reads the block is shown the value it stands
for. -/
structure Kept (sb : Yaf_Sb_Info) (calls : ℕ → Call) (s : State UInt32) : Prop where
  changed : ∀ i bid nr r v, (s.tasks i).code = .ret r → s.missed i = false →
    (calls i).names sb r bid nr v → i ∈ s.changes bid nr
  shown : ∀ i bid nr r, s.last bid nr = some i → (s.tasks i).code = .ret r →
    (calls i).names sb r bid nr (s.shows bid nr)

/-- **Allocations are kept**, in every run in which no buffer is dropped between the `brelse` and
the `mark_buffer_dirty` of a call that changed a bit of it. -/
theorem kept_of_reaches {sb : Yaf_Sb_Info} {calls : ℕ → Call} {s₀ s : State UInt32}
    (h : Fresh sb calls s₀) (hr : Reaches Calm s₀ s) : Kept sb calls s := by
  have hstart : Start (fun i => (calls i).names sb) s₀ := by
    refine ⟨fun i => ?_, h.saved, h.changes⟩
    rw [h.tasks i]
    exact ok_code sb (calls i)
  refine ⟨fun i bid nr r v hret hread hname => ?_, fun i bid nr r hlast hret => ?_⟩
  · obtain ⟨bid', nr', v', hname', hmem⟩ := changed_of_reaches hstart hr hret hread hname
    obtain ⟨rfl, rfl, rfl⟩ := Call.names_unique hname hname'
    exact hmem
  · exact shown_of_reaches hstart hr hlast hret

/-! ### Two runs -/

/-- Calls on the smallest volume, with an empty cache and a device of zeros. -/
def blank (calls : ℕ → Call) : State UInt32 where
  disk := fun _ _ => 0
  cache := fun _ => none
  tasks := fun i => ⟨(calls i).code ⟨1, 1, 1, 60⟩, none⟩
  changes := fun _ _ => []
  missed := fun _ => false

theorem fresh_blank (calls : ℕ → Call) : Fresh ⟨1, 1, 1, 60⟩ calls (blank calls) where
  tasks _ := rfl
  saved _ _ _ hb := absurd hb.symm (Option.some_ne_none _)
  changes _ _ := rfl

/-- What a run of the calls from `blank` ends in. -/
theorem exists_exec (calls : ℕ → Call) (es : List Event) (p : State UInt32 → Bool)
    (h : (exec (blank calls) es).any p = true) :
    ∃ s, exec (blank calls) es = some s ∧ p s = true := by
  cases hs : exec (blank calls) es with
  | none =>
      rw [hs] at h
      exact absurd h Bool.false_ne_true
  | some s =>
      rw [hs] at h
      exact ⟨s, rfl, h⟩

/-- Whether a call has returned the given number. -/
def returned (s : State UInt32) (i : ℕ) (r : UInt32) : Bool :=
  match (s.tasks i).code with
  | .ret x => x == r
  | _ => false

theorem code_of_returned {s : State UInt32} {i : ℕ} {r : UInt32} (h : returned s i r = true) :
    (s.tasks i).code = .ret r := by
  rw [returned] at h
  cases hc : (s.tasks i).code with
  | ret x =>
      rw [hc] at h
      rw [beq_iff_eq.1 h]
  | sb_bread _ _ | test_and_set_bit _ _ | test_and_clear_bit _ _ | mark_buffer_dirty _ | brelse _
  | panic =>
      rw [hc] at h
      exact absurd h Bool.false_ne_true

/-- An allocation of an inode, after the buffer of the bitmap was written back. -/
theorem kept_written_back : ∃ s, Reaches Calm (blank fun _ => .get_free_inode) s ∧
    returned s 0 0 = true ∧ s.last 1 0 = some 0 ∧
    Kept ⟨1, 1, 1, 60⟩ (fun _ => .get_free_inode) s := by
  obtain ⟨s, hs, hp⟩ := exists_exec (fun _ => .get_free_inode)
    [.run 0 true, .run 0 true, .run 0 true, .run 0 true, .writeback 1]
    (fun s => returned s 0 0 && decide (s.last 1 0 = some 0)) (by decide +kernel)
  rw [Bool.and_eq_true, decide_eq_true_eq] at hp
  have hr : Reaches Calm (blank fun _ => .get_free_inode) s :=
    reaches_calm_of_exec (by simp) hs
  exact ⟨s, hr, hp.1, hp.2, kept_of_reaches (fresh_blank _) hr⟩

/-- **An allocation is lost**: the buffer of the data bitmap is dropped between `brelse` and
`mark_buffer_dirty`, and the block that was just handed out is free again. -/
theorem not_kept_dropped : ∃ s, Reaches (fun _ _ => True) (blank fun _ => .get_free_dblock) s ∧
    ¬Kept ⟨1, 1, 1, 60⟩ (fun _ => .get_free_dblock) s := by
  obtain ⟨s, hs, hp⟩ := exists_exec (fun _ => .get_free_dblock)
    [.run 0 true, .run 0 true, .run 0 true, .reclaim 2, .run 0 true]
    (fun s => returned s 0 0 && decide (s.last 2 0 = some 0) && !s.shows 2 0) (by decide +kernel)
  simp only [Bool.and_eq_true, decide_eq_true_eq, Bool.not_eq_true'] at hp
  obtain ⟨⟨hret, hlast⟩, hshow⟩ := hp
  refine ⟨s, reaches_of_exec hs, fun h => ?_⟩
  have hname := h.shown 0 2 0 0 hlast (code_of_returned hret)
  rw [hshow] at hname
  exact Bool.false_ne_true hname.2.2.2

end Yaf.Pressure
