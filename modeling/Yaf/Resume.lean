/-
**Going on with a listing.**

A call of `yaf_iterate_shared` that starts in the middle of a block sets its slot counter to the
slot of the position, and its dentry pointer to the first dentry of the block.  It passes over as
many slots as there are left in the block, but looks at those at the beginning of it.  From the
next block on the two agree again.

Main definitions:

* `Yaf.World.passed` — how many slots of the first block a call passes over;
* `Yaf.World.Resumes` — the blocks can be read, and the slots the call looks at in the first one
  have the live dentries it should emit;
* `Yaf.World.Sole` — the live dentries of a directory have different names.

Main results:

* `Yaf.wp_iterDir_within` — one call from the middle of a block;
* `Yaf.resume_iff` — **when a call emits exactly what is left of the directory**;
* `Yaf.World.resumes_of_dvd` — which is always so from the beginning of a block.
-/

import Yaf.Listing
import Mathlib.Data.List.Sort

set_option relaxedAutoImplicit false
set_option autoImplicit false

namespace Yaf

open Prog

/-! ### Sublists of a range -/

section Ranges

variable {α : Type} {f : ℕ → Option α}

/-- Only the members that are mapped to something count. -/
theorem filterMap_eq_of_mem_iff {l l' : List ℕ} (hl : l.Pairwise (· < ·))
    (hl' : l'.Pairwise (· < ·)) (h : ∀ s, f s ≠ none → (s ∈ l ↔ s ∈ l')) :
    l.filterMap f = l'.filterMap f := by
  have hfilter : ∀ l : List ℕ, l.filterMap f = (l.filter fun s => (f s).isSome).filterMap f := by
    intro l
    rw [List.filterMap_filter]
    refine List.filterMap_congr fun s _ => ?_
    cases f s <;> rfl
  have hsame : (l.filter fun s => (f s).isSome) = l'.filter fun s => (f s).isSome := by
    refine List.Perm.eq_of_pairwise (fun a b _ _ hab hba => absurd hab (Nat.lt_asymm hba))
      (hl.filter _) (hl'.filter _) ?_
    rw [List.perm_ext_iff_of_nodup (hl.filter _).nodup (hl'.filter _).nodup]
    intro s
    rw [List.mem_filter, List.mem_filter]
    refine and_congr_left fun hs => h s ?_
    exact Option.isSome_iff_ne_none.1 hs
  rw [hfilter l, hfilter l', hsame]

/-- A list is known by what it is mapped to, as far as that tells its members apart. -/
theorem filterMap_eq_iff {l l' : List ℕ} (hl : l.Pairwise (· < ·)) (hl' : l'.Pairwise (· < ·))
    (hinj : ∀ s s' e, s ∈ l ∨ s ∈ l' → s' ∈ l ∨ s' ∈ l' → f s = some e → f s' = some e → s = s') :
    l.filterMap f = l'.filterMap f ↔ ∀ s, f s ≠ none → (s ∈ l ↔ s ∈ l') := by
  refine ⟨fun h s hs => ?_, filterMap_eq_of_mem_iff hl hl'⟩
  obtain ⟨e, he⟩ := Option.ne_none_iff_exists'.1 hs
  have hback : ∀ l₁ l₂ : List ℕ, l₁.filterMap f = l₂.filterMap f →
      (∀ s', s' ∈ l₂ → f s' = some e → s' = s) → s ∈ l₁ → s ∈ l₂ := by
    intro l₁ l₂ heq hsame hmem
    have hmap : e ∈ l₁.filterMap f := List.mem_filterMap.2 ⟨s, hmem, he⟩
    rw [heq] at hmap
    obtain ⟨s', hmem', he'⟩ := List.mem_filterMap.1 hmap
    rwa [← hsame s' hmem' he']
  constructor
  · intro hmem
    exact hback l l' h (fun s' hs' he' => hinj s' s e (.inr hs') (.inl hmem) he' he) hmem
  · intro hmem
    exact hback l' l h.symm (fun s' hs' he' => hinj s' s e (.inl hs') (.inr hmem) he' he) hmem

end Ranges

/-! ### The first block -/

namespace World

/-- How many slots of its block a pass from slot `k` passes over. -/
def passed (di : Inode) (k : ℕ) : ℕ := min (128 - k % 128) (slots di.i_size - k)

/-- The entries a pass from slot `k` emits in its first block. -/
def firstEntries (w : World) (di : Inode) (k : ℕ) : List DirEntry :=
  (List.range' (128 * (k / 128)) (passed di k)).filterMap (w.entry di)

/-- The live dentries of a directory have different names. -/
def Sole (w : World) (di : Inode) : Prop :=
  ∀ s < slots di.i_size, ∀ s' < slots di.i_size, w.entry di s ≠ none →
    (w.entry di s).map DirEntry.name = (w.entry di s').map DirEntry.name → s = s'

instance (w : World) (di : Inode) : Decidable (w.Sole di) := Nat.decidableBallLT _ _

/-- **When a pass from slot `k` emits what is left of the directory**: the blocks it comes to can
be read, and a live dentry is among the slots it looks at in the first one if and only if it is
among those it passes over. -/
def Resumes (w : World) (di : Inode) (k : ℕ) : Prop :=
  (∀ s < slots di.i_size, k ≤ s →
    w.readable .scan (DNO2BID w.sb (di.blk (s / 128)).toNat) = true) ∧
  ∀ s < slots di.i_size, w.entry di s ≠ none →
    (128 * (k / 128) ≤ s ∧ s < 128 * (k / 128) + passed di k ↔ k ≤ s ∧ s < k + passed di k)

instance (w : World) (di : Inode) (k : ℕ) : Decidable (w.Resumes di k) :=
  inferInstanceAs (Decidable (_ ∧ _))

end World

section Within

variable {w : World} {di : Inode} {k : ℕ}

/-- What is left of a directory: the rest of the first block, and the blocks behind it. -/
theorem entriesFrom_within (w : World) (hm : slots di.i_size ≤ 1024) (hk : k ≤ slots di.i_size) :
    w.entriesFrom di k = (List.range' k (World.passed di k)).filterMap (w.entry di) ++
      w.entriesFrom di (128 * (k / 128 + 1)) := by
  rw [World.entriesFrom, World.entriesFrom, MAX_DENTRYS_eq, Nat.min_eq_left hm,
    ← List.filterMap_append]
  have hp : World.passed di k = min (128 - k % 128) (slots di.i_size - k) := rfl
  rcases Nat.lt_or_ge (slots di.i_size) (128 * (k / 128 + 1)) with h | h
  · have hrest : slots di.i_size - 128 * (k / 128 + 1) = 0 := by omega
    have hall : World.passed di k = slots di.i_size - k := by omega
    rw [hrest, hall, List.range'_zero, List.append_nil]
  · have hend : 128 * (k / 128 + 1) = k + World.passed di k := by omega
    have hlen : slots di.i_size - k =
        World.passed di k + (slots di.i_size - (k + World.passed di k)) := by omega
    rw [hend, hlen, ← List.range'_append_1]

/-- **The first block of a pass from slot `k`.** -/
theorem wp_iterDir_first (hk₈ : k < 1024) (hk : k < slots di.i_size) (rem : ℕ) (ctx : DirContext)
    {Q : Option ℕ × DirContext → World → Prop} {E : Fault → Prop} :
    wp (iterDir di (rem + 1) (32 * k) ctx) Q E w ↔
      if w.readable .scan (DNO2BID w.sb (di.blk (k / 128)).toNat) then
        wp (iterDir di rem (32 * min (128 * (k / 128 + 1)) (slots di.i_size))
          (emitAll ctx (w.firstEntries di k))) Q E w
      else Q (none, ctx) w := by
  have hsz : slots di.i_size = (di.i_size + 31) / 32 := rfl
  have hdiv : 32 * k / YAF_BLOCK_SIZE = k / 128 := by rw [YAF_BLOCK_SIZE_eq]; omega
  have hmod : 32 * k % YAF_BLOCK_SIZE / YAF_DENTRY_SIZE = k % 128 := by
    have hd : YAF_DENTRY_SIZE = 32 := rfl
    rw [YAF_BLOCK_SIZE_eq, hd]
    omega
  have hp : World.passed di k = min (128 - k % 128) (slots di.i_size - k) := rfl
  have hend : k + World.passed di k = min (128 * (k / 128 + 1)) (slots di.i_size) := by omega
  -- slot `k + t` is passed over when slot `128 * (k / 128) + t` is looked at
  have hslots := iterSlots_eq (b := w.disk (DNO2BID w.sb (di.blk (k / 128)).toNat))
    (p := fun s => w.entry di (s - k + 128 * (k / 128))) di.i_size (128 - k % 128) 0 k ctx
    fun t ht => by
      rw [World.entry, Nat.add_sub_cancel_left, show (t + 128 * (k / 128)) / 128 = k / 128 by omega,
        show (t + 128 * (k / 128)) % 128 = t by omega, Nat.zero_add]
  have hfirst : (List.range' k (World.passed di k)).filterMap
      (fun s => w.entry di (s - k + 128 * (k / 128))) = w.firstEntries di k := by
    have hshift : List.range' (128 * (k / 128)) (World.passed di k) =
        (List.range' k (World.passed di k)).map fun s => s - k + 128 * (k / 128) := by
      rw [List.range'_eq_map_range, List.range'_eq_map_range, List.map_map]
      refine List.map_congr_left fun t _ => ?_
      simp only [Function.comp_apply]
      omega
    rw [World.firstEntries, hshift, List.filterMap_map]
    rfl
  rw [iterDir, if_pos (by omega), wp_bind, wp_get, wp_bind, hdiv, wp_iblock di (by omega), wp_bind,
    wp_sb_bread]
  cases w.readable .scan (DNO2BID w.sb (di.blk (k / 128)).toNat) with
  | false => simp
  | true =>
      rw [if_pos rfl, if_pos rfl, wp_bind, wp_bData, hmod, DENTRYS_PER_BLOCK_eq, ← hend, ← hfirst]
      rw [Nat.mul_zero, ← hp] at hslots
      rw [hslots]

/-- The slots from `k` on can be read when the block of slot `k` can, and the slots behind it. -/
theorem scans_from_iff {b : ℕ} (hk : k / 128 = b)
    (hread : w.readable .scan (DNO2BID w.sb (di.blk b).toNat) = true) :
    (∀ s < slots di.i_size, k ≤ s →
        w.readable .scan (DNO2BID w.sb (di.blk (s / 128)).toNat) = true) ↔
      ∀ s < slots di.i_size, 128 * (b + 1) ≤ s →
        w.readable .scan (DNO2BID w.sb (di.blk (s / 128)).toNat) = true := by
  constructor
  · intro hall s hs hks
    exact hall s hs (by omega)
  · intro hall s hs hks
    rcases Nat.lt_or_ge s (128 * (b + 1)) with hin | hout
    · rwa [show s / 128 = b by omega]
    · exact hall s hs hout

/-- The blocks behind the first one, from block `k` on. -/
theorem wp_iterDir_behind (hm : slots di.i_size ≤ 1024) (rem k : ℕ) (hk : 8 ≤ k + rem)
    (ctx : DirContext) :
    wp (iterDir di rem (32 * min (128 * k) (slots di.i_size)) ctx)
      (fun r _ => if ∀ s < slots di.i_size, 128 * k ≤ s →
            w.readable .scan (DNO2BID w.sb (di.blk (s / 128)).toNat) = true then
          r = (some (32 * slots di.i_size), emitAll ctx (w.entriesFrom di (128 * k)))
        else r.1 = none) (fun _ => False) w := by
  have hsz : slots di.i_size = (di.i_size + 31) / 32 := rfl
  have hle : di.i_size ≤ 32 * slots di.i_size := by omega
  -- at the end of the directory nothing is read
  have hstop : ∀ rem k ctx, slots di.i_size ≤ 128 * k →
      wp (iterDir di rem (32 * min (128 * k) (slots di.i_size)) ctx)
        (fun r _ => if ∀ s < slots di.i_size, 128 * k ≤ s →
              w.readable .scan (DNO2BID w.sb (di.blk (s / 128)).toNat) = true then
            r = (some (32 * slots di.i_size), emitAll ctx (w.entriesFrom di (128 * k)))
          else r.1 = none) (fun _ => False) w := by
    intro rem k ctx hge
    rw [Nat.min_eq_right hge, wp_iterDir_of_ge hle, if_pos (fun s hs hks => by omega),
      World.entriesFrom_of_le (by omega), emitAll_nil]
  induction rem generalizing k ctx with
  | zero => exact hstop 0 k ctx (by omega)
  | succ rem ih =>
      rcases Nat.lt_or_ge (128 * k) (slots di.i_size) with hlt | hge
      · have hk₈ : k < 8 := by omega
        rw [Nat.min_eq_left (Nat.le_of_lt hlt), wp_iterDir_succ hk₈ hlt]
        split
        · rename_i hread
          refine wp_mono (ih (k + 1) (by omega) _) (fun r w' h => ?_) fun _ h => h
          have hblk : 128 * k / 128 = k := by omega
          rw [World.entriesFrom_block w di hk₈, emitAll_append]
          simp only [scans_from_iff hblk hread]
          exact h
        · rename_i hread
          rw [if_neg fun hall => hread ?_]
          have := hall (128 * k) hlt le_rfl
          rwa [show 128 * k / 128 = k by omega] at this
      · exact hstop (rem + 1) k ctx hge

/-- **One pass from slot `k`**: it emits the entries it looks at in the first block and those
behind it, unless it comes to a block that cannot be read. -/
theorem wp_iterDir_within (hm : slots di.i_size ≤ 1024) (hk : k ≤ slots di.i_size)
    (ctx : DirContext) :
    wp (iterDir di YAF_IBLOCKS (32 * k) ctx)
      (fun r _ => if ∀ s < slots di.i_size, k ≤ s →
            w.readable .scan (DNO2BID w.sb (di.blk (s / 128)).toNat) = true then
          r = (some (32 * slots di.i_size),
            emitAll ctx (w.firstEntries di k ++ w.entriesFrom di (128 * (k / 128 + 1))))
        else r.1 = none) (fun _ => False) w := by
  have hsz : slots di.i_size = (di.i_size + 31) / 32 := rfl
  rcases Nat.lt_or_ge k (slots di.i_size) with hlt | hge
  · rw [wp_iterDir_first (by omega) hlt]
    split
    · rename_i hread
      refine wp_mono (wp_iterDir_behind hm 7 (k / 128 + 1) (by omega) _) (fun r w' h => ?_)
        fun _ h => h
      rw [emitAll_append]
      simp only [scans_from_iff rfl hread]
      exact h
    · rename_i hread
      rw [if_neg fun hall => hread (hall k hlt le_rfl)]
  · have hp : World.passed di k = 0 := by
      rw [World.passed]
      omega
    rw [show k = slots di.i_size by omega, wp_iterDir_of_ge (by omega),
      if_pos (fun s hs hks => by omega), World.firstEntries, ← show k = slots di.i_size by omega, hp,
      List.range'_zero, World.entriesFrom_of_le (by omega)]
    rfl

end Within

/-! ### One call -/

section Resume

variable {w : World} {dir : ℕ} {di : Inode} (hi : w.inode? dir = some di)
  (hd : S_ISDIR di.i_mode = true) {m : ℕ} (hs : di.i_size = 32 * m) (hm : m ≤ 1024)

/-- A sink without a bound takes everything. -/
theorem emitAll_none (pos : ℕ) (out es : List DirEntry) :
    emitAll ⟨pos, none, out⟩ es = ⟨pos, none, out ++ es⟩ := by
  induction es generalizing out with
  | nil => rw [emitAll_nil, List.append_nil]
  | cons e es ih =>
      have hstep : emitAll ⟨pos, none, out⟩ (e :: es) = emitAll ⟨pos, none, out ++ [e]⟩ es := rfl
      rw [hstep, ih, List.append_assoc]
      rfl

theorem slots_mul (hs : di.i_size = 32 * m) : slots di.i_size = m := by
  rw [hs, slots]
  omega

include hi hd hs hm

/-- What a call from slot `k` returns. -/
theorem value_resume {k : ℕ} (hk : k ≤ m) (parent : ℕ) :
    if ∀ s < slots di.i_size, k ≤ s →
        w.readable .scan (DNO2BID w.sb (di.blk (s / 128)).toNat) = true then
      value (yaf_iterate_shared dir parent ⟨2 + 32 * k, none, []⟩) w =
        .ok (0, ⟨2 + di.i_size, none,
          w.firstEntries di k ++ w.entriesFrom di (128 * (k / 128 + 1))⟩)
    else ∃ ctx, value (yaf_iterate_shared dir parent ⟨2 + 32 * k, none, []⟩) w =
      .ok (- EIO, ctx) := by
  have hslots := slots_mul hs
  have hdots : dir_emit_dots ⟨2 + 32 * k, none, []⟩ dir parent =
      (true, ⟨2 + 32 * k, none, []⟩) := by
    have h₀ : 2 + 32 * k ≠ 0 := by omega
    have h₁ : 2 + 32 * k ≠ 1 := by omega
    simp only [dir_emit_dots, if_neg h₀, if_neg h₁]
  have hoff : (2 + 32 * k) - 2 = 32 * k := by omega
  have hdvd : ((2 + 32 * k) - 2) % YAF_DENTRY_SIZE = 0 := by
    rw [hoff]
    exact Nat.mul_mod_right 32 k
  have hpass := wp_iterDir_within (w := w) (k := k) (by rw [hslots]; exact hm)
    (by rw [hslots]; exact hk) ⟨2 + 32 * k, none, []⟩
  split
  · rename_i hread
    refine value_of_wp ?_
    rw [wp_iterate hi hd hdots hdvd]
    dsimp only
    rw [hoff]
    refine wp_mono hpass (fun r w' h => ?_) fun _ h => h
    rw [if_pos hread] at h
    subst h
    rw [emitAll_none, List.nil_append, hslots, hs]
    dsimp only
    rw [Nat.add_comm]
  · rename_i hread
    have hret : wp (yaf_iterate_shared dir parent ⟨2 + 32 * k, none, []⟩)
        (fun r _ => r.1 = - EIO) (fun _ => False) w := by
      rw [wp_iterate hi hd hdots hdvd]
      dsimp only
      rw [hoff]
      refine wp_mono hpass (fun r w' h => ?_) fun _ h => h
      rw [if_neg hread] at h
      obtain ⟨doff, ctx⟩ := r
      dsimp only at h
      subst h
      rfl
    obtain ⟨r, w', hrun, hr⟩ := hret.exists_ok
    obtain ⟨ret, ctx⟩ := r
    dsimp only at hr
    subst hr
    exact ⟨ctx, by rw [value, hrun]⟩

/-- **A call goes on exactly where a listing stopped**, and emits what is left of the directory,
when and only when the dentries it looks at in its first block are the ones it should. -/
theorem resume_iff (hsole : w.Sole di) {k : ℕ} (hk : k ≤ m) (parent : ℕ) :
    value (yaf_iterate_shared dir parent ⟨2 + 32 * k, none, []⟩) w =
        .ok (0, ⟨2 + di.i_size, none, w.entriesFrom di k⟩) ↔ w.Resumes di k := by
  have hslots := slots_mul hs
  have hvalue := value_resume hi hd hs hm hk parent
  rw [World.Resumes]
  split at hvalue
  · rename_i hread
    have hp : World.passed di k = min (128 - k % 128) (m - k) := by rw [World.passed, hslots]
    have hrest := entriesFrom_within (k := k) w (by rw [hslots]; exact hm) (by rw [hslots]; exact hk)
    rw [hvalue, hrest, and_iff_right hread]
    simp only [Except.ok.injEq, Prod.mk.injEq, true_and, DirContext.mk.injEq,
      List.append_cancel_right_eq, World.firstEntries]
    have hrange : ∀ a s, s ∈ List.range' a (World.passed di k) ↔
        a ≤ s ∧ s < a + World.passed di k := fun a s => List.mem_range'_1
    have hlt : ∀ s, s ∈ List.range' (128 * (k / 128)) (World.passed di k) ∨
        s ∈ List.range' k (World.passed di k) → s < slots di.i_size := by
      intro s hs
      rw [hrange, hrange] at hs
      omega
    have hinj : ∀ s s' e, s ∈ List.range' (128 * (k / 128)) (World.passed di k) ∨
        s ∈ List.range' k (World.passed di k) →
        s' ∈ List.range' (128 * (k / 128)) (World.passed di k) ∨
          s' ∈ List.range' k (World.passed di k) →
        w.entry di s = some e → w.entry di s' = some e → s = s' := by
      intro s s' e hs hs' he he'
      exact hsole s (hlt s hs) s' (hlt s' hs') (by rw [he]; simp) (by rw [he, he'])
    rw [filterMap_eq_iff List.pairwise_lt_range' List.pairwise_lt_range' hinj]
    simp only [hrange]
    constructor
    · intro h s _ hlive
      exact h s hlive
    · intro h s hlive
      rcases Nat.lt_or_ge s (slots di.i_size) with hin | hout
      · exact h s hin hlive
      · omega
  · rename_i hread
    obtain ⟨ctx, hctx⟩ := hvalue
    rw [hctx]
    refine iff_of_false (fun h => ?_) fun h => hread h.1
    have := (Prod.mk.injEq _ _ _ _ ▸ Except.ok.inj h).1
    exact absurd this (by decide)

end Resume

/-- From the beginning of a block it is enough that the blocks can be read. -/
theorem World.resumes_of_dvd {w : World} {di : Inode} {k : ℕ} (h : 128 ∣ k) :
    w.Resumes di k ↔ ∀ s < slots di.i_size, k ≤ s →
      w.readable .scan (DNO2BID w.sb (di.blk (s / 128)).toNat) = true := by
  refine and_iff_left fun s _ _ => ?_
  rw [Nat.mul_div_cancel' h]

/-- The root directory has three slots, and satisfies `p`. -/
def World.threeSlots (w : World) (p : Inode → Bool) : Bool :=
  (w.inode? ROOT_INO).any fun di =>
    S_ISDIR di.i_mode && decide (di.i_size = 96) && decide (w.Sole di) && p di

theorem World.exists_of_threeSlots {w : World} {p : Inode → Bool} (h : w.threeSlots p = true) :
    ∃ di, w.inode? ROOT_INO = some di ∧ S_ISDIR di.i_mode = true ∧ di.i_size = 32 * 3 ∧
      w.Sole di ∧ p di = true := by
  obtain ⟨di, hi, hp⟩ := (Option.any_eq_true _ _).1 h
  simp only [Bool.and_eq_true, decide_eq_true_eq] at hp
  obtain ⟨⟨⟨hd, hs⟩, hsole⟩, hp⟩ := hp
  exact ⟨di, hi, hd, hs, hsole, hp⟩

/-- Three files, of which the first and the last were removed: from slot 1 on there is one. -/
theorem resume_three_slots : ∃ l w di, Run step (fun w op => op.Pre w) (fresh .small) l w ∧
    w.inode? ROOT_INO = some di ∧ w.entriesFrom di 1 = [⟨[65, 65], 3⟩] ∧
    value (yaf_iterate_shared ROOT_INO ROOT_INO ⟨2 + 32 * 1, none, []⟩) w =
      .ok (0, ⟨2 + di.i_size, none, w.entriesFrom di 1⟩) := by
  obtain ⟨l, w, hrun, hp⟩ := Volume.exists_run Volume.small_ok (fun w op => op.Pre w)
    [.create 1 (.letters 0) 0, .create 1 (.letters 1) 0, .create 1 (.letters 2) 0,
      .unlink 1 (.letters 0) 2, .unlink 1 (.letters 2) 4]
    (fun _ w => w.threeSlots fun di =>
      decide (w.entriesFrom di 1 = [⟨[65, 65], 3⟩]) && decide (w.Resumes di 1))
    (by decide +kernel)
  obtain ⟨di, hi, hd, hs, hsole, hp⟩ := World.exists_of_threeSlots hp
  rw [Bool.and_eq_true, decide_eq_true_eq, decide_eq_true_eq] at hp
  exact ⟨l, w, di, hrun, hi, hp.1,
    (resume_iff hi hd hs (by decide) hsole (by decide) ROOT_INO).2 hp.2⟩

/-- **Two files were created after the first was listed**: the next call emits the first file
again, and never the last. -/
theorem not_resume_three_files : ∃ l w di,
    Run step (fun w op => op.Pre w) (fresh .small) l w ∧ w.inode? ROOT_INO = some di ∧
    w.Sole di ∧ w.DirReadable di ∧
    w.entriesFrom di 1 = [⟨[65, 65], 3⟩, ⟨[65, 65, 65], 4⟩] ∧
    value (yaf_iterate_shared ROOT_INO ROOT_INO ⟨2 + 32 * 1, none, []⟩) w =
      .ok (0, ⟨2 + di.i_size, none, [⟨[65], 2⟩, ⟨[65, 65], 3⟩]⟩) ∧
    value (yaf_iterate_shared ROOT_INO ROOT_INO ⟨2 + 32 * 1, none, []⟩) w ≠
      .ok (0, ⟨2 + di.i_size, none, w.entriesFrom di 1⟩) := by
  obtain ⟨l, w, hrun, hp⟩ := Volume.exists_run Volume.small_ok (fun w op => op.Pre w)
    [.create 1 (.letters 0) 0, .create 1 (.letters 1) 0, .create 1 (.letters 2) 0]
    (fun _ w => w.threeSlots fun di =>
      decide (w.entriesFrom di 1 = [⟨[65, 65], 3⟩, ⟨[65, 65, 65], 4⟩]) &&
        decide (w.firstEntries di 1 ++ w.entriesFrom di 128 = [⟨[65], 2⟩, ⟨[65, 65], 3⟩]) &&
          decide (w.DirReadable di))
    (by decide +kernel)
  obtain ⟨di, hi, hd, hs, hsole, hp⟩ := World.exists_of_threeSlots hp
  simp only [Bool.and_eq_true, decide_eq_true_eq] at hp
  obtain ⟨⟨hfrom, hout⟩, hread⟩ := hp
  have hslots : slots di.i_size = 3 := slots_mul hs
  have hvalue := @value_resume w ROOT_INO di hi hd 3 hs (by decide) 1 (by decide) ROOT_INO
  rw [if_pos ?_, hout] at hvalue
  · refine ⟨l, w, di, hrun, hi, hsole, hread, hfrom, hvalue, ?_⟩
    rw [hvalue, hfrom]
    simp
  · intro s hs' _
    rw [show s / 128 = 0 by omega]
    exact hread 0 (by decide) (by omega)

end Yaf
