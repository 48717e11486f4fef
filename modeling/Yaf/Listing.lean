/-
**Listing a directory in pieces.**

`getdents` calls `yaf_iterate_shared` again and again on one open file.  Each call has a sink with
some room, and the position it leaves is where the next call goes on.  The driver goes on after a
refused `dir_emit` and leaves the position behind the last slot, so what one call had no room for
no later call emits.

Main definitions:

* `Yaf.World.entries` — the live dentries of a directory, in slot order;
* `Yaf.Listing` — a sequence of calls, up to the first that emits nothing, and what they emit.

Main results:

* `Yaf.wp_iterDir` — one pass over a directory emits as many entries as there is room for;
* `Yaf.listing_iff` — **which sequences of calls list a directory exactly once**.
-/

import Yaf.Vfs
import Yaf.Dir

set_option relaxedAutoImplicit false
set_option autoImplicit false

namespace Yaf

open Prog

/-! ### What there is to list -/

/-- The number of slots of a directory of `size` bytes. -/
def slots (size : ℕ) : ℕ := (size + 31) / 32

/-- The entry a slot emits, if it is live. -/
def slotEntry (b : Block) (yd : ℕ) : Option DirEntry :=
  if d_ino b yd ≠ RESERVED_INO then some ⟨emittedName b yd, (d_ino b yd).toNat⟩ else none

namespace World

/-- The entry of slot `j` of a directory. -/
def entry (w : World) (di : Inode) (j : ℕ) : Option DirEntry :=
  slotEntry (w.disk (DNO2BID w.sb (di.blk (j / 128)).toNat)) (32 * (j % 128))

/-- The entries of the slots from `j` on, as far as there are blocks for them in `i_block`. -/
def entriesFrom (w : World) (di : Inode) (j : ℕ) : List DirEntry :=
  (List.range' j (min (slots di.i_size) MAX_DENTRYS - j)).filterMap (w.entry di)

/-- The entries of block `k`. -/
def blockEntries (w : World) (di : Inode) (k : ℕ) : List DirEntry :=
  (List.range' (128 * k) (min 128 (slots di.i_size - 128 * k))).filterMap (w.entry di)

/-- **The live dentries of a directory**, in slot order. -/
def entries (w : World) (di : Inode) : List DirEntry := w.entriesFrom di 0

/-- Every block of a directory can be read. -/
def DirReadable (w : World) (di : Inode) : Prop :=
  ∀ k < YAF_IBLOCKS, 128 * k < slots di.i_size →
    w.readable .scan (DNO2BID w.sb (di.blk k).toNat) = true

instance (w : World) (di : Inode) : Decidable (w.DirReadable di) :=
  Nat.decidableBallLT _ _

end World

/-- The entries `.` and `..`. -/
def dots (dir parent : ℕ) : List DirEntry := [⟨[46], dir⟩, ⟨[46, 46], parent⟩]

/-- **A sequence of calls.**  Call `k` starts at position `pos` with room for `rooms k` entries;
the sequence ends with the first call that emits nothing.  The list is what all calls emit. -/
inductive Listing (w : World) (dir parent : ℕ) (rooms : ℕ → ℕ) : ℕ → ℕ → List DirEntry → Prop
  | stop {k pos : ℕ} {r : ℤ} {ctx : DirContext} :
      value (yaf_iterate_shared dir parent ⟨pos, some (rooms k), []⟩) w = .ok (r, ctx) →
      ctx.out = [] → Listing w dir parent rooms k pos []
  | more {k pos : ℕ} {r : ℤ} {ctx : DirContext} {l : List DirEntry} :
      value (yaf_iterate_shared dir parent ⟨pos, some (rooms k), []⟩) w = .ok (r, ctx) →
      ctx.out ≠ [] → Listing w dir parent rooms (k + 1) ctx.pos l →
      Listing w dir parent rooms k pos (ctx.out ++ l)

/-! ### One block -/

/-- Emitting one entry after the other, whether or not the sink takes them. -/
def emitAll (ctx : DirContext) (es : List DirEntry) : DirContext :=
  es.foldl (fun ctx e => (dir_emit ctx e).2) ctx

@[simp] theorem emitAll_nil (ctx : DirContext) : emitAll ctx [] = ctx := rfl

theorem emitAll_append (ctx : DirContext) (es es' : List DirEntry) :
    emitAll ctx (es ++ es') = emitAll (emitAll ctx es) es' := List.foldl_append

/-- **A sink takes what it has room for.** -/
theorem emitAll_some (pos n : ℕ) (out es : List DirEntry) :
    emitAll ⟨pos, some n, out⟩ es = ⟨pos, some (n - es.length), out ++ es.take n⟩ := by
  induction es generalizing n out with
  | nil => simp
  | cons e es ih =>
      cases n with
      | zero => simpa [emitAll, dir_emit] using ih 0 out
      | succ n =>
          have hstep : emitAll ⟨pos, some (n + 1), out⟩ (e :: es) =
              emitAll ⟨pos, some n, out ++ [e]⟩ es := rfl
          rw [hstep, ih n (out ++ [e]), List.take_succ_cons, List.append_assoc, List.length_cons,
            Nat.add_sub_add_right]
          rfl

/-- The slots of one block emit the entries of the slots `j, j + 1, …` of the directory. -/
theorem iterSlots_eq {b : Block} {p : ℕ → Option DirEntry} (size rem i j : ℕ) (ctx : DirContext)
    (hp : ∀ t < rem, slotEntry b (32 * (i + t)) = p (j + t)) :
    iterSlots size b rem (32 * i) (32 * j) ctx =
      (32 * (j + min rem (slots size - j)),
        emitAll ctx ((List.range' j (min rem (slots size - j))).filterMap p)) := by
  induction rem generalizing i j ctx with
  | zero => simp [iterSlots]
  | succ rem ih =>
      have hd : YAF_DENTRY_SIZE = 32 := rfl
      have hslots : slots size = (size + 31) / 32 := rfl
      rcases Nat.lt_or_ge j (slots size) with hj | hj
      · have hmin : min (rem + 1) (slots size - j) = min rem (slots size - (j + 1)) + 1 := by omega
        have hcnt : j + (min rem (slots size - (j + 1)) + 1) =
            j + 1 + min rem (slots size - (j + 1)) := by omega
        have hp₀ : slotEntry b (32 * i) = p j := hp 0 (Nat.succ_pos rem)
        have hnext := fun ctx => ih (i + 1) (j + 1) ctx fun t ht => by
          have := hp (t + 1) (by omega)
          rwa [show i + (t + 1) = i + 1 + t by omega, show j + (t + 1) = j + 1 + t by omega]
            at this
        rw [iterSlots, if_pos (by omega), hd, show 32 * i + 32 = 32 * (i + 1) by omega,
          show 32 * j + 32 = 32 * (j + 1) by omega, hnext, hmin, hcnt, List.range'_succ,
          List.filterMap_cons, ← hp₀, slotEntry]
        split <;> rfl
      · have hmin : min (rem + 1) (slots size - j) = 0 := by omega
        rw [iterSlots, if_neg (by omega), hmin]
        rfl

/-! ### One pass -/

section Pass

variable {w : World} {di : Inode}

/-- The entries of a block, and those behind it. -/
theorem World.entriesFrom_block (w : World) (di : Inode) {k : ℕ} (hk : k < 8) :
    w.entriesFrom di (128 * k) = w.blockEntries di k ++ w.entriesFrom di (128 * (k + 1)) := by
  rw [World.entriesFrom, World.blockEntries, World.entriesFrom, MAX_DENTRYS_eq,
    ← List.filterMap_append]
  rcases Nat.lt_or_ge (slots di.i_size) (128 * (k + 1)) with h | h
  · have hlen : min (slots di.i_size) 1024 - 128 * k = slots di.i_size - 128 * k := by omega
    have hrest : min (slots di.i_size) 1024 - 128 * (k + 1) = 0 := by omega
    have hblk : min 128 (slots di.i_size - 128 * k) = slots di.i_size - 128 * k := by omega
    rw [hlen, hrest, hblk, List.range'_zero, List.append_nil]
  · have hlen : min (slots di.i_size) 1024 - 128 * k =
        128 + (min (slots di.i_size) 1024 - 128 * (k + 1)) := by omega
    have hblk : min 128 (slots di.i_size - 128 * k) = 128 := by omega
    rw [hlen, hblk, ← List.range'_append_1]
    rfl

theorem World.entriesFrom_of_le {j : ℕ} (h : min (slots di.i_size) 1024 ≤ j) :
    w.entriesFrom di j = [] := by
  rw [World.entriesFrom, MAX_DENTRYS_eq, Nat.sub_eq_zero_of_le h]
  rfl

/-- Nothing is read at the end of a directory. -/
theorem wp_iterDir_of_ge {doff : ℕ} (h : di.i_size ≤ doff) (rem : ℕ) (ctx : DirContext)
    {Q : Option ℕ × DirContext → World → Prop} {E : Fault → Prop} :
    wp (iterDir di rem doff ctx) Q E w ↔ Q (some doff, ctx) w := by
  cases rem with
  | zero => rw [iterDir, if_neg (Nat.not_lt.2 h), wp_pure]
  | succ rem => rw [iterDir, if_neg (Nat.not_lt.2 h), wp_pure]

/-- One block of a directory: it cannot be read, or its entries are emitted. -/
theorem wp_iterDir_succ {k : ℕ} (hk₈ : k < 8) (hk : 128 * k < slots di.i_size) (rem : ℕ)
    (ctx : DirContext)
    {Q : Option ℕ × DirContext → World → Prop} {E : Fault → Prop} :
    wp (iterDir di (rem + 1) (32 * (128 * k)) ctx) Q E w ↔
      if w.readable .scan (DNO2BID w.sb (di.blk k).toNat) then
        wp (iterDir di rem (32 * min (128 * (k + 1)) (slots di.i_size))
          (emitAll ctx (w.blockEntries di k))) Q E w
      else Q (none, ctx) w := by
  have hsz : slots di.i_size = (di.i_size + 31) / 32 := rfl
  have hdiv : 32 * (128 * k) / YAF_BLOCK_SIZE = k := by rw [YAF_BLOCK_SIZE_eq]; omega
  have hmod : 32 * (128 * k) % YAF_BLOCK_SIZE / YAF_DENTRY_SIZE = 0 := by
    rw [YAF_BLOCK_SIZE_eq, show 32 * (128 * k) % 4096 = 0 by omega, Nat.zero_div]
  have hend : 128 * k + min 128 (slots di.i_size - 128 * k) =
      min (128 * (k + 1)) (slots di.i_size) := by omega
  have hslots := iterSlots_eq (b := w.disk (DNO2BID w.sb (di.blk k).toNat)) (p := w.entry di)
    di.i_size 128 0 (128 * k) ctx fun t ht => by
      rw [World.entry, show (128 * k + t) / 128 = k by omega, show (128 * k + t) % 128 = t by omega,
        Nat.zero_add]
  rw [iterDir, if_pos (by omega), wp_bind, wp_get, wp_bind, hdiv, wp_iblock di (by omega), wp_bind,
    wp_sb_bread]
  cases w.readable .scan (DNO2BID w.sb (di.blk k).toNat) with
  | false => simp
  | true =>
      rw [if_pos rfl, if_pos rfl, wp_bind, wp_bData, hmod, DENTRYS_PER_BLOCK_eq, ← hend]
      rw [Nat.mul_zero] at hslots
      rw [Nat.sub_zero, hslots]
      rfl

/-- **One pass over a directory** whose blocks can be read hands every entry to the sink.  A
directory that is too long for `i_block` is read past the array. -/
theorem wp_iterDir (hread : w.DirReadable di) (ctx : DirContext) :
    wp (iterDir di YAF_IBLOCKS 0 ctx)
      (fun r _ => di.i_size ≤ 32768 ∧
        r = (some (32 * slots di.i_size), emitAll ctx (w.entries di)))
      (fun _ => 32768 < di.i_size) w := by
  have hsz : slots di.i_size = (di.i_size + 31) / 32 := rfl
  have hle : di.i_size ≤ 32 * slots di.i_size := by omega
  -- after `k` blocks the pass stands at slot `128 * k`, or at the end of the directory
  have hloop : ∀ rem k ctx, k + rem = 8 →
      wp (iterDir di rem (32 * min (128 * k) (slots di.i_size)) ctx)
        (fun r _ => di.i_size ≤ 32768 ∧
          r = (some (32 * slots di.i_size), emitAll ctx (w.entriesFrom di (128 * k))))
        (fun _ => 32768 < di.i_size) w := by
    intro rem
    induction rem with
    | zero =>
        intro k ctx hk
        rcases Nat.lt_or_ge 1024 (slots di.i_size) with hlt | hge
        · rw [Nat.min_eq_left (by omega), iterDir, if_pos (by omega), wp_throw]
          omega
        · rw [Nat.min_eq_right (by omega), wp_iterDir_of_ge hle,
            World.entriesFrom_of_le (by omega), emitAll_nil]
          exact ⟨by omega, rfl⟩
    | succ rem ih =>
        intro k ctx hk
        have hk₈ : k < 8 := by omega
        rcases Nat.lt_or_ge (128 * k) (slots di.i_size) with hlt | hge
        · rw [Nat.min_eq_left (Nat.le_of_lt hlt), wp_iterDir_succ hk₈ hlt, if_pos (hread k hk₈ hlt),
            World.entriesFrom_block w di hk₈, emitAll_append]
          exact ih (k + 1) _ (by omega)
        · rw [Nat.min_eq_right hge, wp_iterDir_of_ge hle, World.entriesFrom_of_le (by omega),
            emitAll_nil]
          exact ⟨by omega, rfl⟩
  exact hloop 8 0 ctx rfl

/-- **A pass that meets a block it cannot read** emits the entries before it, the same in every
pass. -/
theorem exists_wp_iterDir_none (hread : ¬w.DirReadable di) :
    ∃ l, l <+: w.entries di ∧ ∀ ctx, wp (iterDir di YAF_IBLOCKS 0 ctx)
      (fun r _ => r = (none, emitAll ctx l)) (fun _ => False) w := by
  have hloop : ∀ rem k, k + rem = 8 →
      (∃ j, k ≤ j ∧ j < 8 ∧ 128 * j < slots di.i_size ∧
        w.readable .scan (DNO2BID w.sb (di.blk j).toNat) = false) →
      ∃ l, l <+: w.entriesFrom di (128 * k) ∧
        ∀ ctx, wp (iterDir di rem (32 * min (128 * k) (slots di.i_size)) ctx)
          (fun r _ => r = (none, emitAll ctx l)) (fun _ => False) w := by
    intro rem
    induction rem with
    | zero =>
        rintro k hk ⟨j, hj, hj₈, -⟩
        omega
    | succ rem ih =>
        rintro k hk ⟨j, hj, hj₈, hlt, hno⟩
        have hk₈ : k < 8 := by omega
        have hlt' : 128 * k < slots di.i_size := by omega
        simp only [Nat.min_eq_left (Nat.le_of_lt hlt'), wp_iterDir_succ hk₈ hlt']
        cases hr : w.readable .scan (DNO2BID w.sb (di.blk k).toNat) with
        | false => exact ⟨[], List.nil_prefix, fun ctx => rfl⟩
        | true =>
            have hne : k ≠ j := by
              rintro rfl
              simp [hr] at hno
            obtain ⟨l, hpre, hl⟩ := ih (k + 1) (by omega) ⟨j, by omega, hj₈, hlt, hno⟩
            refine ⟨w.blockEntries di k ++ l, ?_, fun ctx => ?_⟩
            · rw [World.entriesFrom_block w di hk₈]
              exact (List.prefix_append_right_inj _).2 hpre
            · rw [emitAll_append]
              exact hl _
  rw [World.DirReadable] at hread
  push Not at hread
  obtain ⟨k, hk₈, hlt, hno⟩ := hread
  exact hloop 8 0 rfl ⟨k, Nat.zero_le _, hk₈, hlt, Bool.eq_false_iff.2 hno⟩

end Pass

/-! ### One call -/

section Call

variable {w : World} {dir : ℕ} {di : Inode} (hi : w.inode? dir = some di)
  (hd : S_ISDIR di.i_mode = true)

include hi hd

/-- A call whose sink took the entries `.` and `..`, now or before. -/
theorem wp_iterate {parent : ℕ} {ctx ctx' : DirContext}
    (hdots : dir_emit_dots ctx dir parent = (true, ctx'))
    (hdvd : (ctx'.pos - 2) % YAF_DENTRY_SIZE = 0) {Q : ℤ × DirContext → World → Prop}
    {E : Fault → Prop} :
    wp (yaf_iterate_shared dir parent ctx) Q E w ↔
      wp (iterDir di YAF_IBLOCKS (ctx'.pos - 2) ctx')
        (fun r w => match r with
          | (some doff, ctx) => Q (0, { ctx with pos := doff + 2 }) w
          | (none, ctx) => Q (- EIO, ctx) w) E w := by
  rw [yaf_iterate_shared, wp_bind, wp_getInode hi, if_pos hd, hdots]
  dsimp only
  rw [if_neg (not_not_intro hdvd), wp_bind]
  constructor <;> refine fun h => wp_mono h ?_ fun _ h => h
  · rintro ⟨- | doff, ctx⟩ w h <;> exact h
  · rintro ⟨- | doff, ctx⟩ w h <;> exact h

/-- A call that starts behind the last slot emits nothing. -/
theorem value_iterate_end (parent n : ℕ) :
    value (yaf_iterate_shared dir parent ⟨32 * slots di.i_size + 2, some n, []⟩) w =
      .ok (0, ⟨32 * slots di.i_size + 2, some n, []⟩) := by
  refine value_of_wp ?_
  have hdots : dir_emit_dots ⟨32 * slots di.i_size + 2, some n, []⟩ dir parent =
      (true, ⟨32 * slots di.i_size + 2, some n, []⟩) := by simp [dir_emit_dots]
  have hdvd : (32 * slots di.i_size + 2 - 2) % YAF_DENTRY_SIZE = 0 := by
    rw [Nat.add_sub_cancel]
    exact Nat.mul_mod_right 32 _
  have hle : di.i_size ≤ 32 * slots di.i_size + 2 - 2 := by rw [slots]; omega
  rw [wp_iterate hi hd hdots hdvd, wp_iterDir_of_ge hle]
  rfl

/-- **A call that emits `..`, or comes later, and can read the directory** emits the entries it
has room for, and leaves the position behind the last slot. -/
theorem value_iterate_readable (hs : di.i_size ≤ 32768) (hread : w.DirReadable di) {parent n : ℕ} {ctx : DirContext}
    {out : List DirEntry} (hdots : dir_emit_dots ctx dir parent = (true, ⟨2, some n, out⟩)) :
    value (yaf_iterate_shared dir parent ctx) w =
      .ok (0, ⟨32 * slots di.i_size + 2, some (n - (w.entries di).length),
        out ++ (w.entries di).take n⟩) := by
  refine value_of_wp ?_
  rw [wp_iterate hi hd hdots rfl]
  refine wp_mono (wp_iterDir hread _) ?_ fun _ h => absurd hs (Nat.not_le.2 h)
  rintro r w' ⟨-, rfl⟩
  rw [emitAll_some]

/-- Such a call on a directory that is too long for `i_block` stops with a fault. -/
theorem value_iterate_long (hs : 32768 < di.i_size) (hread : w.DirReadable di) {parent n : ℕ}
    {ctx : DirContext} {out : List DirEntry}
    (hdots : dir_emit_dots ctx dir parent = (true, ⟨2, some n, out⟩)) (v : ℤ × DirContext) :
    value (yaf_iterate_shared dir parent ctx) w ≠ .ok v := by
  have hwp : wp (yaf_iterate_shared dir parent ctx) (fun _ _ => False) (fun _ => True) w := by
    rw [wp_iterate hi hd hdots rfl]
    refine wp_mono (wp_iterDir hread _) ?_ fun _ _ => trivial
    rintro r w' ⟨hle, -⟩
    exact absurd hle (Nat.not_le.2 hs)
  intro h
  rw [value] at h
  split at h
  · exact hwp.ok ‹_›
  · cases h

/-- Such a call that cannot read the directory leaves the position where it was. -/
theorem exists_value_iterate_none (hread : ¬w.DirReadable di) :
    ∃ l, l <+: w.entries di ∧ ∀ (parent n : ℕ) (ctx : DirContext) (out : List DirEntry),
      dir_emit_dots ctx dir parent = (true, ⟨2, some n, out⟩) →
        value (yaf_iterate_shared dir parent ctx) w =
          .ok (- EIO, ⟨2, some (n - l.length), out ++ l.take n⟩) := by
  obtain ⟨l, hpre, hl⟩ := exists_wp_iterDir_none hread
  refine ⟨l, hpre, fun parent n ctx out hdots => value_of_wp ?_⟩
  rw [wp_iterate hi hd hdots rfl]
  refine wp_mono (hl _) ?_ fun _ h => h
  rintro r w' rfl
  rw [emitAll_some]

end Call

/-! ### Sequences of calls -/

section Calls

variable {w : World} {dir parent : ℕ} {rooms : ℕ → ℕ} {k pos : ℕ} {r : ℤ} {ctx : DirContext}
  {l : List DirEntry}

/-- A call that emits nothing ends the sequence. -/
theorem listing_stop
    (h : value (yaf_iterate_shared dir parent ⟨pos, some (rooms k), []⟩) w = .ok (r, ctx))
    (ho : ctx.out = []) : Listing w dir parent rooms k pos l ↔ l = [] := by
  constructor
  · rintro (⟨hv, -⟩ | ⟨hv, hne, -⟩)
    · rfl
    · obtain ⟨rfl, rfl⟩ := Prod.mk.injEq _ _ _ _ ▸ Except.ok.inj (h.symm.trans hv)
      exact absurd ho hne
  · rintro rfl
    exact .stop h ho

/-- A call that emits something is followed by another. -/
theorem listing_more
    (h : value (yaf_iterate_shared dir parent ⟨pos, some (rooms k), []⟩) w = .ok (r, ctx))
    (ho : ctx.out ≠ []) : Listing w dir parent rooms k pos l ↔
      ∃ l', Listing w dir parent rooms (k + 1) ctx.pos l' ∧ l = ctx.out ++ l' := by
  constructor
  · rintro (⟨hv, hnil⟩ | ⟨hv, -, hl⟩)
    · obtain ⟨rfl, rfl⟩ := Prod.mk.injEq _ _ _ _ ▸ Except.ok.inj (h.symm.trans hv)
      exact absurd hnil ho
    · obtain ⟨rfl, rfl⟩ := Prod.mk.injEq _ _ _ _ ▸ Except.ok.inj (h.symm.trans hv)
      exact ⟨_, hl, rfl⟩
  · rintro ⟨l', hl, rfl⟩
    exact .more h ho hl

/-- How many entries the sink of the call that emits `..` takes after it. -/
def roomAfterDots (rooms : ℕ → ℕ) : ℕ := if rooms 0 = 1 then rooms 1 - 1 else rooms 0 - 2

variable {di : Inode} (hi : w.inode? dir = some di) (hd : S_ISDIR di.i_mode = true)
  (hr : ∀ k, 1 ≤ rooms k)
include hi hd

/-- Behind the last slot a sequence ends. -/
theorem listing_end : Listing w dir parent rooms k (32 * slots di.i_size + 2) l ↔ l = [] :=
  listing_stop (value_iterate_end hi hd parent _) rfl

include hr

/-- **What the calls emit when the directory can be read**: the dots, and as many entries as the
sink of the call that emitted `..` still took. -/
theorem listing_of_readable (hs : di.i_size ≤ 32768) (hread : w.DirReadable di) :
    Listing w dir parent rooms 0 0 l ↔
      l = dots dir parent ++ (w.entries di).take (roomAfterDots rooms) := by
  have hr₀ := hr 0
  have hr₁ := hr 1
  by_cases h₁ : rooms 0 = 1
  · -- the first sink takes only `.`
    obtain ⟨n, hn⟩ : ∃ n, rooms 1 = n + 1 := ⟨rooms 1 - 1, by omega⟩
    have hfirst : value (yaf_iterate_shared dir parent ⟨0, some (rooms 0), []⟩) w =
        .ok (0, ⟨1, some 0, [⟨[46], dir⟩]⟩) := by
      rw [h₁, yaf_iterate_shared, value_bind_of_ok (run_getInode hi), if_pos hd]
      rfl
    have hdots : dir_emit_dots ⟨1, some (rooms 1), []⟩ dir parent =
        (true, ⟨2, some n, [⟨[46, 46], parent⟩]⟩) := by
      rw [hn]
      rfl
    have hnext := value_iterate_readable hi hd hs hread hdots
    rw [listing_more hfirst (by simp)]
    simp only [listing_more hnext (List.append_ne_nil_of_left_ne_nil (by simp) _),
      listing_end hi hd]
    simp [roomAfterDots, h₁, hn, dots]
  · obtain ⟨n, hn⟩ : ∃ n, rooms 0 = n + 2 := ⟨rooms 0 - 2, by omega⟩
    have hdots : dir_emit_dots ⟨0, some (rooms 0), []⟩ dir parent =
        (true, ⟨2, some n, dots dir parent⟩) := by
      rw [hn]
      rfl
    have hfirst := value_iterate_readable hi hd hs hread hdots
    rw [listing_more hfirst (List.append_ne_nil_of_left_ne_nil (by simp [dots]) _)]
    simp only [listing_end hi hd]
    simp [roomAfterDots, hn]

/-- **What the calls emit when some block cannot be read**: the dots, unless an entry comes before
the block.  Then the calls that follow emit it again and again. -/
theorem exists_listing_of_unreadable (hread : ¬w.DirReadable di) :
    ∃ p, p <+: w.entries di ∧
      ∀ l, Listing w dir parent rooms 0 0 l ↔ p = [] ∧ l = dots dir parent := by
  obtain ⟨p, hpre, hcall⟩ := exists_value_iterate_none hi hd hread
  have hloop : ∀ k, value (yaf_iterate_shared dir parent ⟨2, some (rooms k), []⟩) w =
      .ok (- EIO, ⟨2, some (rooms k - p.length), p.take (rooms k)⟩) := fun k =>
    hcall parent (rooms k) ⟨2, some (rooms k), []⟩ [] rfl
  have hrest : ∀ k l, Listing w dir parent rooms k 2 l ↔ p = [] ∧ l = [] := by
    intro k l
    by_cases hp : p = []
    · rw [listing_stop (hloop k) (by simp [hp])]
      simp [hp]
    · refine ⟨fun h => absurd h ?_, fun h => absurd h.1 hp⟩
      -- the position stays where it is, and every call emits something
      have htake : ∀ k, p.take (rooms k) ≠ [] := fun k => by
        have := hr k
        rw [Ne, List.take_eq_nil_iff]
        rintro (h₀ | hnil)
        · omega
        · exact hp hnil
      have hnever : ∀ pos k l, Listing w dir parent rooms k pos l → pos ≠ 2 := by
        intro pos k l h
        induction h with
        | stop hv hnil =>
            rintro rfl
            obtain ⟨-, rfl⟩ := Prod.mk.injEq _ _ _ _ ▸ Except.ok.inj ((hloop _).symm.trans hv)
            exact htake _ hnil
        | more hv _ _ ih =>
            rintro rfl
            obtain ⟨-, rfl⟩ := Prod.mk.injEq _ _ _ _ ▸ Except.ok.inj ((hloop _).symm.trans hv)
            exact ih rfl
      exact fun h => hnever 2 k l h rfl
  refine ⟨p, hpre, fun l => ?_⟩
  have hr₀ := hr 0
  have hr₁ := hr 1
  by_cases h₁ : rooms 0 = 1
  · obtain ⟨n, hn⟩ : ∃ n, rooms 1 = n + 1 := ⟨rooms 1 - 1, by omega⟩
    have hfirst : value (yaf_iterate_shared dir parent ⟨0, some (rooms 0), []⟩) w =
        .ok (0, ⟨1, some 0, [⟨[46], dir⟩]⟩) := by
      rw [h₁, yaf_iterate_shared, value_bind_of_ok (run_getInode hi), if_pos hd]
      rfl
    have hnext := hcall parent n ⟨1, some (rooms 1), []⟩ [⟨[46, 46], parent⟩] (by rw [hn]; rfl)
    rw [listing_more hfirst (by simp)]
    simp only [listing_more hnext (List.append_ne_nil_of_left_ne_nil (by simp) _), hrest]
    by_cases hp : p = [] <;> simp [hp, dots]
  · obtain ⟨n, hn⟩ : ∃ n, rooms 0 = n + 2 := ⟨rooms 0 - 2, by omega⟩
    have hfirst := hcall parent n ⟨0, some (rooms 0), []⟩ (dots dir parent) (by rw [hn]; rfl)
    rw [listing_more hfirst (List.append_ne_nil_of_left_ne_nil (by simp [dots]) _)]
    simp only [hrest]
    by_cases hp : p = [] <;> simp [hp]

/-- No sequence of calls on a directory that is too long for `i_block` comes to an end. -/
theorem not_listing_long (hs : 32768 < di.i_size) (hread : w.DirReadable di) :
    ¬Listing w dir parent rooms 0 0 l := by
  have hr₀ := hr 0
  have hr₁ := hr 1
  by_cases h₁ : rooms 0 = 1
  · obtain ⟨n, hn⟩ : ∃ n, rooms 1 = n + 1 := ⟨rooms 1 - 1, by omega⟩
    have hfirst : value (yaf_iterate_shared dir parent ⟨0, some (rooms 0), []⟩) w =
        .ok (0, ⟨1, some 0, [⟨[46], dir⟩]⟩) := by
      rw [h₁, yaf_iterate_shared, value_bind_of_ok (run_getInode hi), if_pos hd]
      rfl
    have hnext := @value_iterate_long w dir di hi hd hs hread parent n ⟨1, some (rooms 1), []⟩
      [⟨[46, 46], parent⟩] (by rw [hn]; rfl)
    rw [listing_more hfirst (by simp)]
    rintro ⟨l', ⟨hv, -⟩ | ⟨hv, -⟩, -⟩ <;> exact hnext _ hv
  · obtain ⟨n, hn⟩ : ∃ n, rooms 0 = n + 2 := ⟨rooms 0 - 2, by omega⟩
    have hfirst := @value_iterate_long w dir di hi hd hs hread parent n ⟨0, some (rooms 0), []⟩
      (dots dir parent) (by rw [hn]; rfl)
    rintro (⟨hv, -⟩ | ⟨hv, -⟩) <;> exact hfirst _ hv

/-- **A directory is listed exactly once when the sink that takes `..` has room for all the
entries**, and the directory can be read, or there is nothing to list before the first block that
cannot. -/
theorem listing_iff :
    Listing w dir parent rooms 0 0 (dots dir parent ++ w.entries di) ↔
      (w.entries di).length ≤ roomAfterDots rooms ∧
        (if w.DirReadable di then di.i_size ≤ MAX_FILESIZE else w.entries di = []) := by
  rw [MAX_FILESIZE_eq]
  by_cases hread : w.DirReadable di
  · rw [if_pos hread]
    rcases Nat.lt_or_ge 32768 di.i_size with hlong | hs
    · exact iff_of_false (not_listing_long hi hd hr hlong hread) fun h =>
        absurd h.2 (Nat.not_le.2 hlong)
    · rw [listing_of_readable hi hd hr hs hread, List.append_cancel_left_eq, eq_comm,
        List.take_eq_self_iff, and_iff_left hs]
  · obtain ⟨p, hpre, hl⟩ :=
      @exists_listing_of_unreadable w dir parent rooms di hi hd hr hread
    rw [hl, List.append_right_eq_self, if_neg hread]
    constructor
    · rintro ⟨-, hnil⟩
      exact ⟨by simp [hnil], hnil⟩
    · rintro ⟨-, hnil⟩
      exact ⟨List.eq_nil_of_prefix_nil (hnil ▸ hpre), hnil⟩

end Calls

/-- The root directory after three files were created in it. -/
theorem exists_three_files : ∃ l w di, Run step (fun w op => op.Pre w) (fresh .small) l w ∧
    w.inode? ROOT_INO = some di ∧ S_ISDIR di.i_mode = true ∧ di.i_size ≤ MAX_FILESIZE ∧
    w.DirReadable di ∧
    w.entries di = [⟨[65], 2⟩, ⟨[65, 65], 3⟩, ⟨[65, 65, 65], 4⟩] := by
  obtain ⟨l, w, hrun, hp⟩ := Volume.exists_run Volume.small_ok (fun w op => op.Pre w)
    [.create 1 (.letters 0) 0, .create 1 (.letters 1) 0, .create 1 (.letters 2) 0]
    (fun _ w => (w.inode? ROOT_INO).any fun di =>
      S_ISDIR di.i_mode && decide (di.i_size ≤ MAX_FILESIZE) && decide (w.DirReadable di) &&
        decide (w.entries di = [⟨[65], 2⟩, ⟨[65, 65], 3⟩, ⟨[65, 65, 65], 4⟩]))
    (by decide +kernel)
  obtain ⟨di, hi, hp⟩ := (Option.any_eq_true _ _).1 hp
  simp only [Bool.and_eq_true, decide_eq_true_eq] at hp
  obtain ⟨⟨⟨hd, hs⟩, hread⟩, hentries⟩ := hp
  exact ⟨l, w, di, hrun, hi, hd, hs, hread, hentries⟩

/-- A sink with room for five entries is enough for three files. -/
theorem listing_three_files : ∃ l w di, Run step (fun w op => op.Pre w) (fresh .small) l w ∧
    w.inode? ROOT_INO = some di ∧ (w.entries di).length = 3 ∧
    Listing w ROOT_INO ROOT_INO (fun _ => 5) 0 0 (dots ROOT_INO ROOT_INO ++ w.entries di) := by
  obtain ⟨l, w, di, hrun, hi, hd, hs, hread, hentries⟩ := exists_three_files
  refine ⟨l, w, di, hrun, hi, by rw [hentries]; rfl, ?_⟩
  have hroom : (w.entries di).length ≤ roomAfterDots fun _ => 5 := by
    rw [hentries]
    decide
  refine (listing_iff hi hd fun _ => by decide).2 ⟨hroom, ?_⟩
  rwa [if_pos hread]

/-- **One entry a call**: two calls emit `.` and `..`, the third nothing, and no call the files. -/
theorem not_listing_one_by_one : ∃ l w di, Run step (fun w op => op.Pre w) (fresh .small) l w ∧
    w.inode? ROOT_INO = some di ∧ S_ISDIR di.i_mode = true ∧ di.i_size ≤ MAX_FILESIZE ∧
    w.DirReadable di ∧ (w.entries di).length = 3 ∧
    Listing w ROOT_INO ROOT_INO (fun _ => 1) 0 0 (dots ROOT_INO ROOT_INO) ∧
    ¬Listing w ROOT_INO ROOT_INO (fun _ => 1) 0 0 (dots ROOT_INO ROOT_INO ++ w.entries di) := by
  obtain ⟨l, w, di, hrun, hi, hd, hs, hread, hentries⟩ := exists_three_files
  have hlist := @listing_of_readable w ROOT_INO ROOT_INO (fun _ => 1)
  refine ⟨l, w, di, hrun, hi, hd, hs, hread, by rw [hentries]; rfl, ?_, ?_⟩
  · rw [hlist hi hd (fun _ => le_rfl) hs hread]
    rfl
  · rw [hlist hi hd (fun _ => le_rfl) hs hread, hentries]
    decide

end Yaf
