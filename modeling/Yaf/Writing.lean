/-
**A write of the driver is one of the tree.**

A piece of a write asks for the blocks that the file lacks, stores its bytes in the last of them,
and changes the inode.  No other file has that block and no directory has, so nothing else of the
tree changes.

Main results:

* `Yaf.Refines.mapTo` — the blocks the driver assigns are those of the tree;
* `Yaf.Refines.wp_write` — **a piece of a write**.
-/

import Yaf.Refine
import Yaf.Owners

set_option relaxedAutoImplicit false
set_option autoImplicit false

namespace Yaf

open Prog

variable {w w' : World} {s s' : Namespace} {n : ℕ}

namespace Refines

/-! ### Blocks -/

/-- A request that is granted is answered with the first free block. -/
theorem head_of_grants (h : Refines w s) {m : ℕ} (hg : w.grants (m + 1) = true) :
    ∃ d, (Mem.clears s.dset 32768).head? = some d := by
  rw [World.grants, Bool.and_eq_true, Bool.and_eq_true, Bool.not_eq_true'] at hg
  obtain ⟨⟨-, hclear⟩, -⟩ := hg
  rw [h.held.clears_dbit, h.dset] at hclear
  obtain ⟨d, l, hl⟩ := List.exists_cons_of_ne_nil (List.isEmpty_eq_false_iff.1 hclear)
  exact ⟨d, by rw [hl]; rfl⟩

/-- A known byte is not in an entry that has no block. -/
theorem known_blk (hinv : s.Inv) {off k : ℕ} {b : UInt8} (hb : s.bytes n off = some b)
    (hk : (s.node n).blk k = RESERVED_DNO) : off / 4096 ≠ k := by
  obtain ⟨hn, hf, hlt, -⟩ := hinv.known n off b hb
  have hle := (hinv.file n hn hf).le
  rintro rfl
  exact (hinv.file n hn hf).covered _ (by omega) (by omega) hk

/-- **Blocks for entries of a block map.**  In the end the inode is dirty. -/
theorem assign (h : Refines w s) (hinv : s.Inv) {m k : ℕ} (hn : s.core n ≠ none)
    (hf : ¬s.IsDir n) (hdirty : 0 < m ∨ s.core n = some true) (hk : k + m ≤ 8)
    (hlow : ∀ j < k, (s.node n).blk j ≠ RESERVED_DNO)
    (hhigh : ∀ j, k ≤ j → (s.node n).blk j = RESERVED_DNO) (hg : w.grants m = true) :
    ∃ s', s.assign n m k = some s' ∧ Refines ((w.assign n m k).touch n id) s' := by
  induction m generalizing w s k with
  | zero =>
      have hcore := hdirty.resolve_left (Nat.lt_irrefl 0)
      have hsame : s.edit n id = s := by
        rw [Namespace.edit, id, Function.update_eq_self, ← hcore, Function.update_eq_self]
      have htouch := h.touch hn (f := id) (fun _ => rfl) (fun _ => rfl) fun _ _ => rfl
      rw [hsame] at htouch
      exact ⟨s, rfl, htouch⟩
  | succ m ih =>
      obtain ⟨d, hd⟩ := h.head_of_grants hg
      have hlive := hinv.core n hn
      have hgrant := h.grant hn (k := k) (by omega) hd (fun hdir => absurd hdir hf)
        fun off b hb => known_blk hinv hb (hhigh k le_rfl)
      have hnode : (s.grant n k d).node n = (s.node n).setBlk k (UInt32.ofNat d) :=
        Function.update_self _ _ _
      have hcore : (s.grant n k d).core n = some true := Function.update_self _ _ _
      have hblk : ∀ j, ((s.grant n k d).node n).blk j =
          if j = k then UInt32.ofNat d else (s.node n).blk j := fun j => by
        rw [hnode]
        exact blk_setBlk (s.node n) (by omega) _ j
      have hnext : (w.takeD.2.touch n fun i => i.setBlk k w.takeD.1).grants m = true := by
        rw [World.grants, Bool.and_eq_true] at hg
        rw [grants_touch, hg.2]
      have hrest := ih hgrant (hinv.grant hlive hf (by omega) hlow hhigh hd)
        (by rw [hcore]; exact Option.some_ne_none _) (by rw [Namespace.IsDir, hnode]; exact hf)
        (.inr hcore) (k := k + 1) (by omega) (fun j hj => ?_) (fun j hj => ?_) hnext
      · obtain ⟨s', hs', hr⟩ := hrest
        refine ⟨s', ?_, ?_⟩
        · rw [Namespace.assign, hd]
          exact hs'
        · rw [World.assign, touch_assign]
          exact hr
      · rw [hblk]
        split
        · exact (Namespace.ofNat_clear (Mem.mem_clears.1 (List.mem_of_head? hd)).1).2
        · exact hlow j (by omega)
      · rw [hblk, if_neg (by omega)]
        exact hhigh j (by omega)

/-- **The blocks of a file up to entry `k`.** -/
theorem mapTo (h : Refines w s) (hinv : s.Inv) {k : ℕ} (hn : s.core n ≠ none) (hf : ¬s.IsDir n)
    (hk : k < 8) (hg : w.grants (k + 1 - countAssigned (s.node n) YAF_IBLOCKS 0) = true) :
    ∃ s', s.mapTo n k = some s' ∧ Refines (w.mapped n (s.node n) k) s' := by
  obtain ⟨hle, hlow, -⟩ := countAssigned_spec (s.node n)
  have hfile := hinv.file n (hinv.core n hn) hf
  rw [World.mapped, Namespace.mapTo]
  set c := countAssigned (s.node n) YAF_IBLOCKS 0 with hc
  split
  · exact h.assign hinv hn hf (.inl (by omega)) (by omega) hlow (fun j hj => hfile.blk_free hj) hg
  · have hzero : k + 1 - c = 0 := by omega
    rw [hzero]
    exact ⟨s, rfl, h⟩

/-! ### Bytes -/

/-- **Bytes stored in a block of a file.** -/
theorem fill (h : Refines w s) (hinv : s.Inv) {pos copied : ℕ} {data : List UInt8}
    (hn : s.Live n) (hf : ¬s.IsDir n) (hpage : pos % 4096 + copied ≤ 4096)
    (hcopied : copied ≤ data.length) (hres : (s.node n).blk (pos / 4096) ≠ RESERVED_DNO) :
    Refines (w.setBlock (DNO2BID w.sb ((s.node n).blk (pos / 4096)).toNat)
      (storeBytes (w.disk (DNO2BID w.sb ((s.node n).blk (pos / 4096)).toNat)) (pos % 4096)
        (data.take copied)))
      { s with bytes := Function.update s.bytes n fun off =>
        if pos ≤ off ∧ off < pos + copied then some (data.getD (off - pos) 0)
        else s.bytes n off } := by
  set d := ((s.node n).blk (pos / 4096)).toNat with hd
  set b := storeBytes (w.disk (DNO2BID w.sb d)) (pos % 4096) (data.take copied) with hb
  have hdata : (w.setBlock (DNO2BID w.sb d) b).view.data = Function.update w.view.data d b := by
    rw [World.view_setData]
    rfl
  -- the block is that of the file, at this place of its block map
  have hsole : ∀ m k, s.Live m → ((s.node m).blk k).toNat = d → m = n ∧ k = pos / 4096 := by
    intro m k hm he
    obtain ⟨hnm, hk⟩ := hinv.sole n m _ k hn hm hres (UInt32.toNat_inj.1 he).symm
    exact ⟨hnm.symm, hk.symm⟩
  have hlen : (data.take copied).length = copied := by rw [List.length_take, Nat.min_eq_left hcopied]
  have hold : ∀ m off c, s.bytes m off = some c → (m = n → ¬(pos ≤ off ∧ off < pos + copied)) →
      Function.update w.view.data d b ((s.node m).blk (off / 4096)).toNat (off % 4096) = c := by
    intro m off c hc hoff
    have hs := h.stores m off c hc
    by_cases he : ((s.node m).blk (off / 4096)).toNat = d
    · obtain ⟨rfl, hk⟩ := hsole m _ (hinv.known m off c hc).1 he
      have hout := hoff rfl
      have hframe : ¬(pos % 4096 ≤ off % 4096 ∧
          off % 4096 < pos % 4096 + (data.take copied).length) := by
        rw [hlen]
        omega
      rw [he] at hs ⊢
      rw [Function.update_self, hb, storeBytes, if_neg hframe]
      exact hs
    · rw [Function.update_of_ne he]
      exact hs
  refine ⟨(h.toTracks.setData d b).learn _, fun p j hp hdir hj => ?_, fun m off c hc => ?_⟩
  · have hne : (s.node p).slotBlk j ≠ d := by
      intro he
      obtain ⟨rfl, -⟩ := hsole p _ hp he
      exact hf hdir
    rw [hdata, Function.update_of_ne hne]
    exact h.shows p j hp hdir hj
  · rw [hdata]
    dsimp only at hc ⊢
    rw [Function.update_apply] at hc
    split at hc
    · subst m
      dsimp only at hc
      split at hc
      · rename_i hoff
        have hk : off / 4096 = pos / 4096 := by omega
        have hin : pos % 4096 ≤ off % 4096 ∧
            off % 4096 < pos % 4096 + (data.take copied).length := by
          rw [hlen]
          omega
        have hsub : off % 4096 - pos % 4096 = off - pos := by omega
        have hlt : off - pos < copied := by omega
        rw [hk, ← hd, Function.update_self, hb, storeBytes, if_pos hin, hsub, List.getD_eq_getElem?_getD,
          List.getElem?_take_of_lt hlt, ← List.getD_eq_getElem?_getD]
        exact Option.some.inj hc
      · exact hold n off c hc fun _ => ‹_›
    · exact hold m off c hc fun hmn => absurd hmn ‹_›

/-- A file of another size. -/
theorem resize (h : Refines w s) (hn : s.core n ≠ none) (hf : ¬s.IsDir n) {size : ℕ}
    (hsize : size < 2 ^ 32) :
    Refines (w.touch n fun i => { i with i_size := size })
      (s.edit n fun i => { i with i_size := size }) := by
  have hnode : ∀ p, (s.edit n fun i => { i with i_size := size }).node p =
      if p = n then { s.node n with i_size := size } else s.node p := fun p =>
    Function.update_apply _ _ _ _
  refine ⟨h.toTracks.touch hn hsize, h.shows.congr rfl fun p j hp hd hj => ?_,
    h.stores.congr rfl fun m off b hb => ⟨hb, ?_⟩⟩
  · have hpn : p ≠ n := by
      rintro rfl
      rw [Namespace.IsDir, hnode, if_pos rfl] at hd
      exact hf hd
    rw [Namespace.IsDir, hnode, if_neg hpn] at hd
    rw [Namespace.count, hnode, if_neg hpn] at hj
    exact ⟨hp, hd, hj, by rw [hnode, if_neg hpn], rfl⟩
  · rw [hnode]
    split
    · rw [‹m = n›]
      rfl
    · rfl

/-- **The end of a write.** -/
theorem store (h : Refines w s) (hinv : s.Inv) {pos copied : ℕ} {data : List UInt8}
    (hn : s.core n ≠ none) (hf : ¬s.IsDir n) (hpage : pos % 4096 + copied ≤ 4096)
    (hcopied : copied ≤ data.length) (hlen : pos + copied ≤ 32768)
    (hres : (s.node n).blk (pos / 4096) ≠ RESERVED_DNO) :
    Refines (w.stored n (s.node n) pos data copied
      (DNO2BID w.sb ((s.node n).blk (pos / 4096)).toNat)) (s.store n pos data copied) := by
  have hfill := h.fill hinv (hinv.core n hn) hf hpage hcopied hres
  set bid := DNO2BID w.sb ((s.node n).blk (pos / 4096)).toNat
  set w₁ := w.setBlock bid (storeBytes (w.disk bid) (pos % 4096) (data.take copied)) with hw₁
  set f : ℕ → ℕ → Option UInt8 := Function.update s.bytes n fun off =>
    if pos ≤ off ∧ off < pos + copied then some (data.getD (off - pos) 0) else s.bytes n off
  set w₂ := if pos + copied > (s.node n).i_size then
      w₁.touch n fun i => { i with i_size := pos + copied }
    else w₁ with hw₂
  set s₂ := if pos + copied > (s.node n).i_size then
      s.edit n fun i => { i with i_size := pos + copied }
    else s with hs₂
  have hgrow : Refines w₂ { s₂ with bytes := f } ∧ s₂.core n ≠ none := by
    rw [hw₂, hs₂]
    split
    · refine ⟨hfill.resize hn hf (by omega), ?_⟩
      have hcore : (s.edit n fun i => { i with i_size := pos + copied }).core n = some true :=
        Function.update_self _ _ _
      rw [hcore]
      exact Option.some_ne_none _
    · exact ⟨hfill, hn⟩
  have hstored : w.stored n (s.node n) pos data copied bid =
      if copied < data.length then w₂
      else w₂.touch n fun i => { i with i_ctime := w.now, i_mtime := w.now } := rfl
  have hstore : s.store n pos data copied =
      if copied < data.length then { s₂ with bytes := f }
      else ({ s₂ with bytes := f } : Namespace).edit n fun i =>
        { i with i_ctime := s.now, i_mtime := s.now } := rfl
  rw [hstored, hstore, h.now]
  split
  · exact hgrow.1
  · exact hgrow.1.touch hgrow.2 (fun _ => rfl) (fun _ => rfl) fun _ _ => rfl

/-! ### Writes -/

/-- **A piece of a write of the driver is one of the tree.** -/
theorem wp_write (h : Refines w s) (hinv : s.Inv) {pos copied : ℕ} {data : List UInt8}
    (hn : s.core n ≠ none) (hf : ¬s.IsDir n) (hlen : 0 < data.length)
    (hpage : pos % 4096 + data.length ≤ 4096) (hcopied : copied ≤ data.length)
    (hg : w.grants (w.wantsBlocks n pos data.length) = true) :
    wp (vfs_write n pos data copied)
      (fun r w' => ∃ s', s.write n pos data copied = some ((r, none), s') ∧ Refines w' s')
      (fun _ => False) w := by
  have hi := h.inode? hn
  unfold Namespace.write
  refine wp_vfs_write hi h.held.layout hlen (fun hbig => ?_) fun hle j hj => ?_
  · rw [if_pos hbig]
    exact ⟨s, rfl, h⟩
  · have hwant : w.wantsBlocks n pos data.length =
        pos / 4096 + 1 - countAssigned (s.node n) YAF_IBLOCKS 0 := by
      simp only [World.wantsBlocks, hi, MAX_FILESIZE_eq, YAF_BLOCK_SIZE_eq,
        if_neg (Nat.not_lt.2 hle)]
    rw [hwant] at hg
    have hk : pos / 4096 < 8 := by omega
    obtain ⟨s₁, hmap, hr⟩ := h.mapTo hinv hn hf hk hg
    obtain ⟨hgrown, hblk⟩ := hinv.mapTo (hinv.core n hn) hf hk hmap
    have hcore : s₁.core n ≠ none := by
      rw [hgrown.core]
      split
      · exact Option.some_ne_none _
      · exact hn
    have hfile : ¬s₁.IsDir n := by
      rw [Namespace.IsDir, hgrown.attrs]
      exact hf
    -- the inode is that of the tree
    rw [hr.inode? hcore, Option.some_inj] at hj
    subst hj
    have hsb : (w.mapped n (s.node n) (pos / 4096)).sb = w.sb := (mapped_consts _).1
    have hnblk : s₁.nblk = s.nblk := by rw [hgrown.same]
    rw [if_neg (Nat.not_lt.2 hle), hmap, Option.map_some, hr.readable_eq, hnblk, h.sb]
    by_cases hdev : DNO2BID s.sb ((s₁.node n).blk (pos / 4096)).toNat < s.nblk
    · rw [if_pos hdev, decide_eq_true hdev, if_pos rfl]
      have hend : pos % 4096 + copied ≤ 4096 := by omega
      have hstore := hr.store hgrown.inv hcore hfile hend hcopied (by omega) (hblk _ le_rfl)
      rw [hsb, h.sb] at hstore
      exact ⟨_, rfl, hstore⟩
    · rw [if_neg hdev, decide_eq_false hdev, if_neg Bool.false_ne_true]
      exact ⟨s₁, rfl, hr⟩

end Refines

end Yaf
