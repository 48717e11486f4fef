/-
**The block map of a file only grows**, whatever the allocator answers.

`yaf_get_block` counts the assigned entries of `i_block` anew on each call, and asks for the blocks
up to the entry it wants one by one.  It takes `RESERVED_DNO` for a refusal.  Here the allocator is
any program that leaves the in-memory inodes alone, another one for each call, and a call also
reports the blocks it obtained.

Main definitions:

* `Yaf.Inode.Shaped` — the `i_block` array is a list of blocks followed by `RESERVED_DNO`;
* `Yaf.Allocator` — a program that answers with a block number or `RESERVED_DNO`;
* `Yaf.yaf_get_blockWith` — `yaf_get_block` with an allocator, and the blocks it obtained;
* `Yaf.Maps` — what one call does.

Main results:

* `Yaf.yaf_get_block_eq` — with the allocator of the driver it is `yaf_get_block`;
* `Yaf.maps_of_run` — **the block map is stable** over all sequences of calls.
-/

import Yaf.Effects

set_option relaxedAutoImplicit false
set_option autoImplicit false

namespace Yaf

open Prog

/-! ### Block maps -/

/-- **The `i_block` array is `ds` followed by `RESERVED_DNO`.** -/
structure Inode.Shaped (i : Inode) (ds : List UInt32) : Prop where
  assigned : RESERVED_DNO ∉ ds
  blk : ∀ k, i.blk k = ds.getD k RESERVED_DNO

namespace Inode.Shaped

variable {i : Inode} {ds : List UInt32}

theorem blk_of_lt (h : i.Shaped ds) {k : ℕ} (hk : k < ds.length) : i.blk k = ds[k] := by
  rw [h.blk, List.getD_eq_getElem _ _ hk]

theorem blk_of_le (h : i.Shaped ds) {k : ℕ} (hk : ds.length ≤ k) : i.blk k = RESERVED_DNO := by
  rw [h.blk, List.getD_eq_default _ _ hk]

/-- The entries of the list are the assigned ones. -/
theorem ne_iff (h : i.Shaped ds) (k : ℕ) : i.blk k ≠ RESERVED_DNO ↔ k < ds.length := by
  constructor
  · intro hne
    by_contra hle
    exact hne (h.blk_of_le (Nat.not_lt.1 hle))
  · intro hk he
    rw [h.blk_of_lt hk] at he
    exact h.assigned (he ▸ List.getElem_mem hk)

theorem length_le (h : i.Shaped ds) : ds.length ≤ 8 := by
  by_contra hlt
  exact (h.ne_iff 8).2 (Nat.not_le.1 hlt) (i.blk_of_le le_rfl)

/-- The first loop of `yaf_get_block` counts them. -/
theorem countAssigned (h : i.Shaped ds) : countAssigned i YAF_IBLOCKS 0 = ds.length :=
  countAssigned_eq h.length_le fun k _ => h.ne_iff k

/-- The next entry is assigned. -/
theorem setBlk (h : i.Shaped ds) (hlen : ds.length < 8) {d : UInt32} (hd : d ≠ RESERVED_DNO) :
    (i.setBlk ds.length d).Shaped (ds ++ [d]) := by
  constructor
  · intro hmem
    rcases List.mem_append.1 hmem with hmem | hmem
    · exact h.assigned hmem
    · exact hd (List.mem_singleton.1 hmem).symm
  · intro k
    rw [blk_setBlk i hlen]
    rcases Nat.lt_trichotomy k ds.length with hlt | rfl | hgt
    · rw [if_neg hlt.ne, h.blk, List.getD_append _ _ _ _ hlt]
    · rw [if_pos rfl, List.getD_append_right _ _ _ _ le_rfl, Nat.sub_self]
      rfl
    · rw [if_neg hgt.ne', h.blk_of_le hgt.le, List.getD_eq_default]
      rw [List.length_append, List.length_singleton]
      omega

end Inode.Shaped

/-! ### Allocators -/

/-- **An allocator** answers with a block number or `RESERVED_DNO`, and does not touch the
in-memory inodes. -/
structure Allocator where
  next : Driver UInt32
  frame : Within (Same fun w => (w.sb, w.icache)) (fun _ => True) next

/-- The search of a bitmap section leaves the in-memory inodes alone. -/
theorem getFreeIdx_frame (min : ℕ) (noRead full : UInt32) (rem bid : ℕ) :
    Within (Same fun w : World => (w.sb, w.icache)) (fun _ => True)
      (getFreeIdx min noRead full rem bid) := by
  induction rem generalizing bid with
  | zero => exact .pure _
  | succ rem ih =>
      refine .bind (.bind .get fun _ => .pure _) fun b => .ite ?_ (.pure _)
      refine .bind (.bind .get fun _ => .pure _) fun b => ?_
      refine .bind (.modify fun _ => rfl) fun _ => .ite (.pure _) (ih _)

/-- The allocator of the driver. -/
def bitmapAllocator : Allocator where
  next := yaf_get_free_dblock
  frame := .bind .get fun _ => getFreeIdx_frame _ _ _ _ _

/-- The second loop of `yaf_get_block`, and the blocks it obtained. -/
def allocBlocksWith (alloc : Driver UInt32) (ino : ℕ) : ℕ → ℕ → Driver (Bool × List UInt32)
  | 0, _ => pure (true, [])
  | rem + 1, dbnr => do
      let dno ← alloc
      if dno = RESERVED_DNO then do
        mark_inode_dirty ino
        pure (false, [])
      else do
        setIblock ino dbnr dno
        let r ← allocBlocksWith alloc ino rem (dbnr + 1)
        pure (r.1, dno :: r.2)

/-- `yaf_get_block` with an allocator, and the blocks it obtained. -/
def yaf_get_blockWith (alloc : Driver UInt32) (ino iblk : ℕ) (create : Bool) :
    Driver ((ℤ × Option ℕ) × List UInt32) := do
  let sb := (← get).sb
  if iblk ≥ YAF_IBLOCKS then pure ((-EFBIG, none), [])
  else do
    let dbnr := countAssigned (← getInode ino) YAF_IBLOCKS 0
    if iblk ≥ dbnr then
      if create then
        let r ← allocBlocksWith alloc ino (iblk + 1 - dbnr) dbnr
        if r.1 then do
          mark_inode_dirty ino
          pure ((0, some (DNO2BID sb (← iblock (← getInode ino) iblk).toNat)), r.2)
        else pure ((-ENOSPC, none), r.2)
      else pure ((0, none), [])
    else pure ((0, some (DNO2BID sb (← iblock (← getInode ino) iblk).toNat)), [])

theorem allocBlocks_eq (ino rem dbnr : ℕ) :
    allocBlocks ino rem dbnr = Prod.fst <$> allocBlocksWith yaf_get_free_dblock ino rem dbnr := by
  induction rem generalizing dbnr with
  | zero => rfl
  | succ rem ih =>
      rw [allocBlocks, allocBlocksWith, map_bind]
      refine bind_congr fun dno => ?_
      split
      · rw [map_bind]
        rfl
      · rw [map_bind]
        refine bind_congr fun _ => ?_
        rw [map_bind, ih, map_eq_pure_bind]
        rfl

/-- **With the allocator of the driver it is `yaf_get_block`.** -/
theorem yaf_get_block_eq (ino iblk : ℕ) (create : Bool) :
    yaf_get_block ino iblk create =
      Prod.fst <$> yaf_get_blockWith bitmapAllocator.next ino iblk create := by
  rw [yaf_get_block, yaf_get_blockWith, map_bind]
  refine bind_congr fun w => ?_
  dsimp only
  split
  · rfl
  rw [map_bind]
  refine bind_congr fun i => ?_
  split
  · split
    · rw [map_bind, allocBlocks_eq, map_eq_pure_bind, bind_assoc]
      refine bind_congr fun r => ?_
      rw [pure_bind]
      split
      · simp only [map_bind]
        rfl
      · rfl
    · rfl
  · simp only [map_bind]
    rfl

/-! ### One call -/

/-- A call of `yaf_get_block`. -/
structure Call where
  alloc : Allocator
  iblk : ℕ
  create : Bool

/-- What a call does, with the blocks it obtained. -/
def Call.run (ino : ℕ) (c : Call) : Driver ((ℤ × Option ℕ) × List UInt32) :=
  yaf_get_blockWith c.alloc.next ino c.iblk c.create

/-- **What one call does** to a file whose blocks are `ds`, from `w` to `w'`. -/
structure Maps (ino : ℕ) (ds : List UInt32) (w : World) (c : Call)
    (r : (ℤ × Option ℕ) × List UInt32) (w' : World) : Prop where
  /-- the blocks obtained, also by a call that fails, come after the old ones -/
  shape : ∃ i, w'.inode? ino = some i ∧ i.Shaped (ds ++ r.2)
  /-- what is mapped is the block of the entry asked for -/
  block : ∀ b, r.1.2 = some b → r.1.1 = 0 ∧
    ∃ h : c.iblk < (ds ++ r.2).length, b = DNO2BID w.sb ((ds ++ r.2)[c.iblk]).toNat
  /-- the same call maps it again, with either flag, and obtains nothing -/
  again : ∀ b, r.1.2 = some b → ∀ (a : Allocator) (create : Bool),
    (Call.run ino ⟨a, c.iblk, create⟩).run w' = .ok (((0, some b), []), w')
  /-- without `create` nothing changes -/
  reads : c.create = false → r.2 = [] ∧ w' = w
  /-- a call that maps nothing did not get as far as the entry -/
  none : r.1.2 = none → (ds ++ r.2).length ≤ c.iblk

section Call

variable {w : World} {ino : ℕ} {i : Inode} {ds : List UInt32}

/-- What the allocator does to the inode that is being extended. -/
theorem Allocator.wp_next (a : Allocator) {Q : UInt32 → World → Prop} {E : Fault → Prop}
    (hE : ∀ e, a.next.run w = .error e → E e)
    (hQ : ∀ d w₁, w₁.sb = w.sb → (∀ n, w₁.inode? n = w.inode? n) → Q d w₁) :
    wp a.next Q E w := by
  refine wp_mono (wp_and (a.frame w) (wp_self a.next w)) (fun d w₁ h => ?_) fun e h => hE e h.2
  obtain ⟨hsb, hic⟩ := Prod.mk.inj h.1
  exact hQ d w₁ hsb fun n => by rw [World.inode?, World.inode?, hic]

/-- The blocks the second loop assigns are those it obtained. -/
theorem wp_allocBlocksWith (a : Allocator) (hi : w.inode? ino = some i) (h : i.Shaped ds)
    {rem : ℕ} (hrem : ds.length + rem ≤ 8) :
    wp (allocBlocksWith a.next ino rem ds.length)
      (fun r w' => w'.sb = w.sb ∧ (if r.1 then r.2.length = rem else r.2.length < rem) ∧
        ∃ i', w'.inode? ino = some i' ∧ i'.Shaped (ds ++ r.2))
      (fun e => ∃ v, a.next.run v = .error e) w := by
  induction rem generalizing w i ds with
  | zero =>
      refine ⟨rfl, rfl, i, hi, ?_⟩
      rwa [List.append_nil]
  | succ rem ih =>
      rw [allocBlocksWith, wp_bind]
      refine a.wp_next (fun e he => ⟨w, he⟩) fun d w₁ hsb hinode => ?_
      have hi₁ : w₁.inode? ino = some i := by rw [hinode, hi]
      split
      · rw [wp_bind, wp_mark_inode_dirty]
        refine ⟨hsb, Nat.succ_pos rem, i, ?_, ?_⟩
        · rw [World.inode?_touch, if_pos rfl, hi₁]
          rfl
        · rwa [List.append_nil]
      · rename_i hd
        rw [wp_bind, wp_setIblock _ (by omega), wp_bind]
        have hnew : (w₁.edit ino fun i => i.setBlk ds.length d).inode? ino =
            some (i.setBlk ds.length d) := by
          rw [World.inode?_edit, if_pos rfl, hi₁]
          rfl
        have hlen : (ds ++ [d]).length = ds.length + 1 := List.length_append
        have hrest := ih hnew (h.setBlk (by omega) hd) (by omega)
        rw [hlen] at hrest
        refine wp_mono hrest (fun r w' hr => ?_) fun _ he => he
        obtain ⟨hsb', hcount, i', hi', hshape⟩ := hr
        refine ⟨hsb'.trans hsb, ?_, i', hi', ?_⟩
        · dsimp only
          rw [List.length_cons]
          split <;> rename_i hok
          · rw [if_pos hok] at hcount
            omega
          · rw [if_neg hok] at hcount
            omega
        · rwa [List.append_assoc] at hshape

/-- **An entry that is assigned is mapped at once**, with either flag. -/
theorem run_call_of_lt (hi : w.inode? ino = some i) (h : i.Shaped ds) (c : Call)
    (hlt : c.iblk < ds.length) :
    (c.run ino).run w = .ok (((0, some (DNO2BID w.sb ds[c.iblk].toNat)), []), w) := by
  have hlen := h.length_le
  have hrun : wp (c.run ino) (fun r w' => r = ((0, some (DNO2BID w.sb ds[c.iblk].toNat)), []) ∧
      w' = w) (fun _ => False) w := by
    have h₈ : YAF_IBLOCKS = 8 := rfl
    rw [Call.run, yaf_get_blockWith, wp_bind, wp_get, if_neg (by omega), wp_bind, wp_getInode hi,
      h.countAssigned, if_neg (by omega), wp_bind, wp_getInode hi, wp_bind, wp_iblock _ (by omega),
      wp_pure, h.blk_of_lt hlt]
    exact ⟨rfl, rfl⟩
  obtain ⟨r, w', hr, rfl, rfl⟩ := hrun.exists_ok
  exact hr

/-- **One call**, and it faults only where the allocator does. -/
theorem wp_call (hi : w.inode? ino = some i) (h : i.Shaped ds) (c : Call) :
    wp (c.run ino) (fun r w' => w'.sb = w.sb ∧ Maps ino ds w c r w')
      (fun e => ∃ v, c.alloc.next.run v = .error e) w := by
  have hlen := h.length_le
  have h₈ : YAF_IBLOCKS = 8 := rfl
  have hkeep : i.Shaped (ds ++ []) := by rwa [List.append_nil]
  rcases Nat.lt_or_ge c.iblk ds.length with hlt | hge
  · -- the entry is assigned
    rw [wp_of_run_ok (run_call_of_lt hi h c hlt)]
    refine ⟨rfl, ⟨i, hi, hkeep⟩, ?_, ?_, fun _ => ⟨rfl, rfl⟩, fun hn => absurd hn (by simp)⟩
    · rintro b ⟨⟩
      refine ⟨rfl, by simpa using hlt, ?_⟩
      simp only [List.append_nil]
    · rintro b ⟨⟩ a create
      exact run_call_of_lt hi h ⟨a, c.iblk, create⟩ hlt
  · have hnone : ∀ e : ℤ, Maps ino ds w c ((e, none), []) w := by
      intro e
      refine ⟨⟨i, hi, hkeep⟩, fun b hb => absurd hb (by simp), fun b hb => absurd hb (by simp),
        fun _ => ⟨rfl, rfl⟩, fun _ => ?_⟩
      rwa [List.append_nil]
    rw [Call.run, yaf_get_blockWith, wp_bind, wp_get]
    split
    · exact ⟨rfl, hnone _⟩
    rw [wp_bind, wp_getInode hi, h.countAssigned, if_pos hge]
    split
    · rename_i hcreate
      rw [wp_bind]
      refine wp_mono (wp_allocBlocksWith c.alloc hi h (by omega)) ?_ fun _ he => he
      rintro r w₁ ⟨hsb, hcount, j, hj, hshape⟩
      have hreads : ∀ {P : Prop}, c.create = false → P := fun hc =>
        absurd (hcreate.symm.trans hc) (by simp)
      split
      · -- all the blocks up to the entry were obtained
        have htot : (ds ++ r.2).length = c.iblk + 1 := by
          rw [if_pos ‹_›] at hcount
          rw [List.length_append]
          omega
        have hlt : c.iblk < (ds ++ r.2).length := by omega
        have hj' : (w₁.touch ino id).inode? ino = some j := by
          rw [World.inode?_touch, if_pos rfl, hj]
          rfl
        rw [wp_bind, wp_mark_inode_dirty, wp_bind, wp_getInode hj', wp_bind,
          wp_iblock _ (by omega), wp_pure, hshape.blk_of_lt hlt]
        refine ⟨hsb, ⟨j, hj', hshape⟩, ?_, ?_, hreads, fun hn => absurd hn (by simp)⟩
        · rintro b ⟨⟩
          exact ⟨rfl, hlt, rfl⟩
        · rintro b ⟨⟩ a create
          have hagain := run_call_of_lt hj' hshape ⟨a, c.iblk, create⟩ hlt
          rwa [World.sb_touch, hsb] at hagain
      · refine ⟨hsb, ⟨j, hj, hshape⟩, fun b hb => absurd hb (by simp),
          fun b hb => absurd hb (by simp), hreads, fun _ => ?_⟩
        rw [if_neg ‹_›] at hcount
        rw [List.length_append]
        dsimp only
        omega
    · exact ⟨rfl, hnone 0⟩

end Call

/-! ### All sequences of calls -/

/-- The blocks that the calls of a list obtained. -/
def obtained (l : List (Call × (ℤ × Option ℕ) × List UInt32)) : List UInt32 :=
  l.flatMap fun x => x.2.2

/-- The calls of a run extend the block map by what they obtained. -/
theorem shaped_of_run {w₀ w : World} {ino : ℕ} {ds : List UInt32}
    {l : List (Call × (ℤ × Option ℕ) × List UInt32)}
    (h₀ : ∃ i, w₀.inode? ino = some i ∧ i.Shaped ds)
    (hrun : Run (Call.run ino) (fun _ _ => True) w₀ l w) :
    ∃ i, w.inode? ino = some i ∧ i.Shaped (ds ++ obtained l) := by
  induction hrun with
  | nil => simpa only [obtained, List.flatMap_nil, List.append_nil] using h₀
  | @snoc l w w' c r _ _ hstep ih =>
      obtain ⟨i, hi, h⟩ := ih
      have hshape := ((wp_call hi h c).ok hstep).2.shape
      rw [List.append_assoc] at hshape
      simpa only [obtained, List.flatMap_append, List.flatMap_singleton] using hshape

/-- **The block map of a file only grows and stays stable.**  After any sequence of calls, with
any allocators, the entries are those there were, followed by the blocks obtained; and the next
call adds what it obtains, maps the block of the entry it was asked for, and maps it again when it
is repeated. -/
theorem maps_of_run {w₀ w : World} {ino : ℕ} {i₀ : Inode} {ds : List UInt32}
    {l : List (Call × (ℤ × Option ℕ) × List UInt32)} (hi : w₀.inode? ino = some i₀)
    (h : i₀.Shaped ds) (hrun : Run (Call.run ino) (fun _ _ => True) w₀ l w) :
    (∃ i, w.inode? ino = some i ∧ i.Shaped (ds ++ obtained l)) ∧
      ∀ c, wp (c.run ino) (fun r w' => Maps ino (ds ++ obtained l) w c r w')
        (fun e => ∃ v, c.alloc.next.run v = .error e) w := by
  have hshape := shaped_of_run ⟨i₀, hi, h⟩ hrun
  refine ⟨hshape, fun c => ?_⟩
  obtain ⟨i, hi', h'⟩ := hshape
  exact wp_mono (wp_call hi' h' c) (fun _ _ hc => hc.2) fun _ he => he

/-- An allocator that grants block 40 once. -/
def onceAllocator : Allocator where
  next := do
    if (← get).now = 0 then
      modify fun w => { w with now := 1 }
      pure 40
    else pure RESERVED_DNO
  frame := by
    refine .bind .get fun _ => .ite (.bind (.modify ?_) fun _ => .pure _) (.pure _)
    intro w
    rfl

/-- A new file is extended by two blocks, and then by one of the three that it still lacks. -/
theorem maps_small : ∃ l w i l' w', Run step (fun w op => op.Pre w) (fresh .small) l w ∧
    w.inode? 2 = some i ∧ Run (Call.run 2) (fun _ _ => True) w l' w' ∧
      l'.map (fun x => x.2.1) = [(0, some 6), (-28, none), (0, some 44), (0, none)] ∧
        (∃ j, w'.inode? 2 = some j ∧ j.Shaped [1, 2, 40]) ∧
          ∀ c, wp (c.run 2) (fun r w'' => Maps 2 [1, 2, 40] w' c r w'')
            (fun e => ∃ v, c.alloc.next.run v = .error e) w' := by
  obtain ⟨l, w, hrun, hp⟩ := Volume.exists_run Volume.small_ok (fun w op => op.Pre w)
    [.create 1 (.letters 0) 0] (fun _ w =>
      ((w.inode? 2).any fun i : Inode => (List.range 8).all fun k => i.blk k == RESERVED_DNO) &&
        (exec (Call.run 2) (fun _ _ => True) w
          [⟨bitmapAllocator, 1, true⟩, ⟨onceAllocator, 4, true⟩, ⟨bitmapAllocator, 2, false⟩,
            ⟨onceAllocator, 3, false⟩]).any fun x =>
          x.1.map (fun x => x.2.1) == [(0, some 6), (-28, none), (0, some 44), (0, none)] &&
            obtained x.1 == [1, 2, 40]) (by decide +kernel)
  rw [Bool.and_eq_true] at hp
  obtain ⟨hp, hexec⟩ := hp
  obtain ⟨i, hi, hres⟩ := (Option.any_eq_true _ _).1 hp
  have hshape : i.Shaped [] := by
    refine ⟨by simp, fun k => ?_⟩
    rcases Nat.lt_or_ge k 8 with hk | hk
    · exact eq_of_beq (List.all_eq_true.1 hres k (List.mem_range.2 hk))
    · exact i.blk_of_le hk
  obtain ⟨l', w', hcalls, hp⟩ := exists_run_of_exec (p := fun l' _ =>
    l'.map (fun x => x.2.1) == [(0, some 6), (-28, none), (0, some 44), (0, none)] &&
      obtained l' == [1, 2, 40]) hexec
  rw [Bool.and_eq_true, beq_iff_eq, beq_iff_eq] at hp
  have hmaps := maps_of_run hi hshape hcalls
  rw [hp.2] at hmaps
  exact ⟨l, w, i, l', w', hrun, hi, hcalls, hp.1, hmaps⟩

end Yaf
