/-
**The driver refines the tree of directories.**

A world and a tree of directories fit together when the tree says what the bitmaps, the inodes and
the slots of the directories say.  Every operation of the driver then does to the world what
`Yaf.Namespace.step` does to the tree, with the same result, and stops with a fault exactly when
that function has no value.

Nothing of what a device held before it was formatted is in the tree, so it does not influence the
driver either.

Main definitions:

* `Yaf.Entry` — what a slot says;
* `Yaf.Tracks` — the bitmaps and the inodes are those of the tree;
* `Yaf.Refines` — and so are the slots of the directories.

Main results:

* `Yaf.Refines.wp_lookup` — a lookup of the driver is a search of the tree;
* `Yaf.Refines.wp_linkDentry` — adding an entry to a directory adds it in the tree, or fails with
  the same error, or stops with a fault exactly when the tree says so.
-/

import Yaf.Namespace
import Yaf.Remount
import Mathlib.Data.List.Find

set_option relaxedAutoImplicit false
set_option autoImplicit false

namespace Yaf

open Prog

/-! ### Entries -/

/-- **What the slot at byte `off` of a block says**: it is free, or it has a name, its length and
an inode number. -/
def Entry (b : Block) (off : ℕ) : Option (List UInt8 × ℕ) → Prop
  | none => d_ino b off = RESERVED_INO
  | some (name, ino) => d_ino b off ≠ RESERVED_INO ∧ (d_ino b off).toNat = ino ∧
      (d_name_len b off).toNat = name.length ∧ ∀ i < 24, d_name b off i = name.getD i 0

section Entry

variable {b b' : Block} {off : ℕ} {e : Option (List UInt8 × ℕ)}

/-- An entry is thirty-two bytes. -/
theorem Entry.congr (he : Entry b off e) (h : ∀ x < 32, b' (off + x) = b (off + x)) :
    Entry b' off e := by
  have hino : d_ino b' off = d_ino b off := Mem.rd32_congr fun i hi => h i (by omega)
  have hlen : d_name_len b' off = d_name_len b off := by
    refine Mem.rd32_congr fun i hi => ?_
    rw [Nat.add_assoc]
    exact h (4 + i) (by omega)
  have hname : ∀ i < 24, d_name b' off i = d_name b off i := by
    intro i hi
    rw [d_name, d_name, Nat.add_assoc]
    exact h (8 + i) (by omega)
  cases e with
  | none => exact hino.trans he
  | some e =>
      obtain ⟨h₁, h₂, h₃, h₄⟩ := he
      refine ⟨by rwa [hino], by rwa [hino], by rwa [hlen], fun i hi => ?_⟩
      rw [hname i hi]
      exact h₄ i hi

theorem Entry.isFree_eq (he : Entry b off e) : isFree b off = e.isNone := by
  cases e with
  | none => exact beq_iff_eq.2 he
  | some e => exact beq_eq_false_iff_ne.2 he.1

/-- **The comparison with a name** is right, whether or not the name in the slot has room for a
NUL byte. -/
theorem Entry.isNamed_eq (he : Entry b off e)
    (hname : ∀ x, e = some x → (0 : UInt8) ∉ x.1 ∧ x.1.length ≤ 24) {q : Qstr}
    (hlen : q.len ≤ 24) : isNamed q b off = e.any fun x => x.1 == q.name := by
  cases e with
  | none =>
      have hfree : (d_ino b off != RESERVED_INO) = false := bne_eq_false_iff_eq.2 he
      rw [isNamed, hfree, Bool.false_and]
      rfl
  | some x =>
      obtain ⟨name, ino⟩ := x
      obtain ⟨h₁, -, -, h₄⟩ := he
      obtain ⟨hnul, hle⟩ := hname _ rfl
      have hused : (d_ino b off != RESERVED_INO) = true := bne_iff_ne.2 h₁
      have hstored : Mem.cstr (d_name b off) 24 = name :=
        (Mem.cstr_congr h₄).trans (Mem.cstr_getD hle hnul)
      have hptr : Mem.cstr q.ptr 24 = q.name := Mem.cstr_getD hlen q.nul_free
      rw [isNamed, hused, Bool.true_and, Option.any_some, YAF_DENTRY_NAME_LEN_eq]
      rw [Bool.eq_iff_iff, beq_iff_eq, beq_iff_eq, Mem.strncmp_eq_zero_iff, hstored, hptr]

/-- A slot that was freed. -/
theorem entry_free (b : Block) (off : ℕ) : Entry (Mem.wr32 b off RESERVED_INO) off none :=
  Mem.rd32_wr32 _ _ _

theorem free_of_disjoint (b : Block) {off x : ℕ} (h : x < off ∨ off + 32 ≤ x) :
    Mem.wr32 b off RESERVED_INO x = b x :=
  Mem.wr32_of_disjoint _ _ (h.imp_right fun h => by omega)

theorem fillDentry_of_disjoint (b : Block) {off x : ℕ} (ino : UInt32) (q : Qstr)
    (h : x < off ∨ off + 32 ≤ x) : fillDentry b off ino q x = b x := by
  rw [fillDentry, Mem.strncpy_of_disjoint _ _ (by rw [YAF_DENTRY_NAME_LEN_eq]; omega),
    Mem.wr32_of_disjoint _ _ (by omega), Mem.wr32_of_disjoint _ _ (by omega)]

/-- **A slot that was filled in.** -/
theorem entry_fillDentry (b : Block) (off : ℕ) {n : ℕ} (hn : n < 2 ^ 32) (h₀ : n ≠ 0) {q : Qstr}
    (hlen : q.len ≤ 24) : Entry (fillDentry b off (UInt32.ofNat n) q) off (some (q.name, n)) := by
  have hnat : (UInt32.ofNat n).toNat = n := UInt32.toNat_ofNat_of_lt' hn
  have hino : d_ino (fillDentry b off (UInt32.ofNat n) q) off = UInt32.ofNat n := by
    have hcopy : d_ino (fillDentry b off (UInt32.ofNat n) q) off =
        Mem.rd32 (Mem.wr32 b off (UInt32.ofNat n)) off := by
      refine Mem.rd32_congr fun i hi => ?_
      rw [fillDentry, Mem.strncpy_of_disjoint _ _ (.inl (by omega)),
        Mem.wr32_of_disjoint _ _ (.inl (by omega))]
    rw [hcopy, Mem.rd32_wr32]
  have hnlen : d_name_len (fillDentry b off (UInt32.ofNat n) q) off = UInt32.ofNat q.len := by
    have hcopy : d_name_len (fillDentry b off (UInt32.ofNat n) q) off =
        Mem.rd32 (Mem.wr32 (Mem.wr32 b off (UInt32.ofNat n)) (off + 4) (UInt32.ofNat q.len))
          (off + 4) := by
      refine Mem.rd32_congr fun i hi => ?_
      rw [fillDentry, Mem.strncpy_of_disjoint _ _ (.inl (by omega))]
    rw [hcopy, Mem.rd32_wr32]
  refine ⟨?_, ?_, ?_, fun i hi => ?_⟩
  · rw [hino]
    intro h
    rw [h] at hnat
    exact h₀ hnat.symm
  · rw [hino, hnat]
  · have hlt : q.len < UInt32.size := by
      rw [UInt32.size]
      omega
    rw [hnlen, UInt32.toNat_ofNat_of_lt' hlt]
    rfl
  · have hin : off + 8 ≤ off + 8 + i ∧ off + 8 + i < off + 8 + 24 := by omega
    rw [d_name, fillDentry, Mem.strncpy, YAF_DENTRY_NAME_LEN_eq, if_pos hin,
      Nat.add_sub_cancel_left]
    have hptr : Mem.cstr q.ptr 24 = q.name := Mem.cstr_getD hlen q.nul_free
    rw [hptr]

end Entry

/-! ### Worlds and trees -/

/-- The block of a slot of a directory. -/
def Inode.slotBlk (i : Inode) (j : ℕ) : ℕ := (i.blk (j / 128)).toNat

/-- **The tree says what the bitmaps and the inodes say.**  No device fails.  An inode that is in
memory is that of the tree, and when it is clean its slot is what was written back; an inode that
is not in memory is what its slot says. -/
structure Tracks (w : World) (s : Namespace) : Prop where
  held : w.Held
  io : w.io = ioOk
  sb : w.sb = s.sb
  nblk : w.nblk = s.nblk
  opens : w.opens = s.opens
  now : w.now = s.now
  fsuid : w.fsuid = s.fsuid
  fsgid : w.fsgid = s.fsgid
  iset : w.view.iset = s.iset
  dset : w.view.dset = s.dset
  core : ∀ n, (w.icache n).map InCore.dirty = s.core n
  unlocked : ∀ n c, w.icache n = some c → c.isNew = false
  node : ∀ n c, w.icache n = some c → c.inode = s.node n
  clean : ∀ n, s.core n = some false → (w.slot n).toMem = (s.node n).narrow
  out : ∀ n, s.Live n → s.core n = none → (w.slot n).toMem = s.node n
  range : ∀ n, s.Live n → n < w.sb.nr_i * 64

/-- The slots of the tree are what the blocks say. -/
def Shows (w : World) (s : Namespace) : Prop :=
  ∀ p j, s.Live p → s.IsDir p → j < s.count p →
    Entry (w.view.data ((s.node p).slotBlk j)) (32 * (j % 128)) (s.slot p j)

/-- The bytes of the files that are known are in their blocks. -/
def Stores (w : World) (s : Namespace) : Prop :=
  ∀ n off b, s.bytes n off = some b →
    w.view.data ((s.node n).blk (off / 4096)).toNat (off % 4096) = b

/-- **A world and the tree it stands for.** -/
structure Refines (w : World) (s : Namespace) : Prop extends Tracks w s where
  shows : Shows w s
  stores : Stores w s

/-- What was read from a slot is written to it again. -/
theorem Yaf_Inode.narrow_toMem {y : Yaf_Inode} : y.toMem.narrow = y.toMem := by
  have hmode : y.i_mode.toUInt16.toUInt32.toUInt16 = y.i_mode.toUInt16 :=
    UInt16.toUInt16_toUInt32 _
  have hsize : (UInt32.ofNat y.i_size.toNat).toNat = y.i_size.toNat := by
    rw [UInt32.ofNat_toNat]
  have htime : ∀ t : UInt32, UInt32.ofInt (t.toNat : ℤ) = t := by
    intro t
    apply UInt32.toNat_inj.1
    simp only [UInt32.ofInt, UInt32.toNat_ofNat']
    have := t.toNat_lt
    omega
  simp only [Inode.narrow, Inode.toDisk, Yaf_Inode.toMem, hmode, hsize, htime]

section Tracks

variable {w : World} {s : Namespace}

namespace Tracks

/-- An inode in memory is that of the tree. -/
theorem inode? (h : Tracks w s) {n : ℕ} (hn : s.core n ≠ none) : w.inode? n = some (s.node n) := by
  have hcore := h.core n
  cases hc : w.icache n with
  | none =>
      rw [hc] at hcore
      exact absurd hcore.symm hn
  | some c => exact World.inode?_eq_some.2 ⟨c, hc, h.unlocked n c hc, h.node n c hc⟩

theorem inode?_none (h : Tracks w s) {n : ℕ} (hn : s.core n = none) : w.icache n = none := by
  have hcore := h.core n
  rwa [hn, Option.map_eq_none_iff] at hcore

/-- **The logical inodes are those of the tree.** -/
theorem logical (h : Tracks w s) {n : ℕ} (hn : s.Live n) : w.logical n = s.node n := by
  cases hc : s.core n with
  | none =>
      have hin : w.inode? n = none := by rw [World.inode?, h.inode?_none hc]
      rw [World.logical, hin]
      exact h.out n hn hc
  | some c =>
      have hcore : s.core n ≠ none := by rw [hc]; exact Option.some_ne_none c
      rw [World.logical, h.inode? hcore]
      rfl

theorem holds_iff (h : Tracks w s) {kind : UInt16 → Bool} {n : ℕ} :
    w.holds kind n = true ↔ s.holds kind n := by
  rw [Namespace.holds]
  by_cases hn : s.core n = none
  · have hin : w.inode? n = none := by rw [World.inode?, h.inode?_none hn]
    simp [World.holds, hin, hn]
  · simp [World.holds, h.inode? hn, hn]

theorem readable (h : Tracks w s) (site : Site) {bid : ℕ} (hb : bid < s.nblk) :
    w.readable site bid = true := w.readable_of_ioOk h.io site (by rw [h.nblk]; exact hb)

theorem readable_eq (h : Tracks w s) (site : Site) (bid : ℕ) :
    w.readable site bid = decide (bid < s.nblk) := by
  rw [World.readable, h.io, h.nblk]
  rfl

/-! Each store of the driver, and what it is for the tree. -/

theorem put (h : Tracks w s) (p j : ℕ) (e : Option (List UInt8 × ℕ)) :
    Tracks w (s.put p j e) :=
  ⟨h.held, h.io, h.sb, h.nblk, h.opens, h.now, h.fsuid, h.fsgid, h.iset, h.dset, h.core,
    h.unlocked, h.node, h.clean, h.out, h.range⟩

/-- Other bytes are known. -/
theorem learn (h : Tracks w s) (f : ℕ → ℕ → Option UInt8) : Tracks w { s with bytes := f } :=
  ⟨h.held, h.io, h.sb, h.nblk, h.opens, h.now, h.fsuid, h.fsgid, h.iset, h.dset, h.core,
    h.unlocked, h.node, h.clean, h.out, h.range⟩

/-- An inode in memory has a slot. -/
theorem lt_of_core (h : Tracks w s) {n : ℕ} (hn : s.core n ≠ none) : n < w.sb.nr_i * 64 :=
  h.held.lt_of_inode? (h.inode? hn)

/-- A store that changes no slot, and what it does to the bitmaps. -/
theorem setBlock (h : Tracks w s) {bid : ℕ} (b : Block)
    (hb : bid < 1 + w.sb.nr_ibp + w.sb.nr_dbp ∨ 1 + w.sb.nr_ibp + w.sb.nr_dbp + w.sb.nr_i ≤ bid)
    {s' : Namespace} (hs' : s' = { s with
      iset := (w.setBlock bid b).view.iset
      dset := (w.setBlock bid b).view.dset })
    (hlive : ∀ n, s'.Live n → s.Live n ∨ s.core n ≠ none) : Tracks (w.setBlock bid b) s' := by
  subst hs'
  have hclean : ∀ n, s.core n = some false → ((w.setBlock bid b).slot n).toMem =
      (s.node n).narrow := by
    intro n hn
    rw [World.slot_setBlock b (h.lt_of_core (by simp [hn])) hb]
    exact h.clean n hn
  have hout : ∀ n, s.Live n → s.core n = none →
      ((w.setBlock bid b).slot n).toMem = s.node n := by
    intro n hn hcore
    rw [World.slot_setBlock b (h.range n hn) hb]
    exact h.out n hn hcore
  exact ⟨h.held.setBlock bid b, h.io, h.sb, h.nblk, h.opens, h.now, h.fsuid, h.fsgid, rfl, rfl,
    h.core, h.unlocked, h.node, hclean,
    fun n hn hcore => hout n ((hlive n hn).resolve_right (not_not.2 hcore)) hcore,
    fun n hn => (hlive n hn).elim (h.range n) h.lt_of_core⟩

/-- A store to a data block. -/
theorem setData (h : Tracks w s) (d : ℕ) (b : Block) :
    Tracks (w.setBlock (DNO2BID w.sb d) b) s := by
  have hbid := DNO2BID_eq w.sb d
  have hview := w.view_setData d b
  refine h.setBlock b (.inr (by omega)) ?_ fun _ => .inl
  rw [hview, View.iset_setData, View.dset_setData, h.iset, h.dset]

/-- Marking a data block. -/
theorem markD (h : Tracks w s) {d : ℕ} (hd : d < w.sb.nr_dbp * 32768) (used : Bool) :
    Tracks (w.markD d used) { s with dset := Function.update s.dset d used } := by
  have hbid := IDXD2BID_eq w.sb d
  have hview := w.view_markD hd used
  have hdiv : d / 32768 < w.sb.nr_dbp := Nat.div_lt_of_lt_mul (by omega)
  refine h.setBlock _ (.inl (by omega)) ?_ fun _ => .inl
  rw [World.markD] at hview
  rw [hview, View.iset_setD, View.dset_setD, h.iset, h.dset]

/-- Marking an inode number. -/
theorem markI (h : Tracks w s) {n : ℕ} (hn : n < w.sb.nr_i * 64) (used : Bool)
    (hlive : used = true → s.core n ≠ none) :
    Tracks (w.markI n used) { s with iset := Function.update s.iset n used } := by
  have hbid := IDXI2BID_eq w.sb n
  have hcov : n < w.sb.nr_ibp * 32768 := Nat.lt_of_lt_of_le hn h.held.layout.ibp_covers
  have hview := w.view_markI hcov used
  have hdiv : n / 32768 < w.sb.nr_ibp := Nat.div_lt_of_lt_mul (by omega)
  refine h.setBlock _ (.inl (by omega)) ?_ fun m hm => ?_
  · rw [World.markI] at hview
    rw [hview, View.iset_setI, View.dset_setI, h.iset, h.dset]
  · obtain ⟨hset, h₀⟩ := hm
    simp only [Function.update_apply] at hset
    split at hset
    · rw [‹m = n›]
      exact .inr (hlive hset)
    · exact .inl ⟨hset, h₀⟩

/-- Releasing data blocks. -/
theorem unmark (h : Tracks w s) {l : List ℕ} (hl : ∀ d ∈ l, d < w.sb.nr_dbp * 32768) :
    Tracks (w.unmark l) { s with dset := fun d => s.dset d && !decide (d ∈ l) } := by
  induction l generalizing w s with
  | nil =>
      have hnil : (fun d => s.dset d && !decide (d ∈ ([] : List ℕ))) = s.dset := by
        funext d
        simp
      rw [hnil]
      exact h
  | cons d l ih =>
      have hd := hl d List.mem_cons_self
      have hrest := ih (h.markD hd false) fun e he => hl e (List.mem_cons_of_mem d he)
      have hcons : (fun e => Function.update s.dset d false e && !decide (e ∈ l)) =
          fun e => s.dset e && !decide (e ∈ d :: l) := by
        funext e
        by_cases he : e = d
        · simp [he]
        · simp [he]
      rw [← hcons]
      exact hrest

/-- Replacing an inode in memory. -/
theorem setCore (h : Tracks w s) {n : ℕ} {i : Inode} {dirty : Bool} (hn : n < w.sb.nr_i * 64)
    (hsize : i.i_size < 2 ^ 32) (hclean : dirty = false → (w.slot n).toMem = i.narrow) :
    Tracks (w.setCore n (some ⟨i, dirty, false⟩)) { s with
      node := Function.update s.node n i
      core := Function.update s.core n (some dirty) } := by
  refine ⟨h.held.setCore rfl hn hsize, h.io, h.sb, h.nblk, h.opens, h.now, h.fsuid, h.fsgid,
    h.iset, h.dset, fun m => ?_, fun m c hc => ?_, fun m c hc => ?_, fun m hm => ?_,
    fun m hm hcore => ?_, h.range⟩
  · simp only [Function.update_apply]
    split
    · rw [‹m = n›, World.icache_setCore_self]
      rfl
    · rw [World.icache_setCore_of_ne _ _ _ ‹_›]
      exact h.core m
  · by_cases hmn : m = n
    · rw [hmn, World.icache_setCore_self, Option.some_inj] at hc
      rw [← hc]
    · rw [World.icache_setCore_of_ne _ _ _ hmn] at hc
      exact h.unlocked m c hc
  · by_cases hmn : m = n
    · rw [hmn, World.icache_setCore_self, Option.some_inj] at hc
      rw [← hc, hmn]
      exact (Function.update_self n i s.node).symm
    · rw [World.icache_setCore_of_ne _ _ _ hmn] at hc
      exact (h.node m c hc).trans (Function.update_of_ne hmn _ _).symm
  · simp only [Function.update_apply] at hm ⊢
    split
    · rw [if_pos ‹_›, Option.some_inj] at hm
      rw [‹m = n›]
      exact hclean hm
    · rw [if_neg ‹_›] at hm
      exact h.clean m hm
  · simp only [Function.update_apply] at hcore ⊢
    split
    · rw [if_pos ‹_›] at hcore
      simp at hcore
    · rw [if_neg ‹_›] at hcore
      exact h.out m hm hcore

/-- Changing an inode in memory. -/
theorem touch (h : Tracks w s) {n : ℕ} (hn : s.core n ≠ none) {f : Inode → Inode}
    (hsize : (f (s.node n)).i_size < 2 ^ 32) : Tracks (w.touch n f) (s.edit n f) := by
  obtain ⟨c, hc, hnew, hnode⟩ := World.inode?_eq_some.1 (h.inode? hn)
  have htouch : w.touch n f = w.setCore n (some ⟨f (s.node n), true, false⟩) := by
    rw [World.touch, hc, Option.map_some, hnode, hnew]
  rw [htouch]
  exact h.setCore (h.lt_of_core hn) hsize fun hd => by simp at hd

/-- Reading an inode in, when the one in memory is not dirty. -/
theorem load (h : Tracks w s) {n : ℕ} (hn : s.Live n) (hclean : s.core n ≠ some true) :
    Tracks (w.load n) (s.load n) := by
  have hslot : (s.node n).narrow = (w.slot n).toMem := by
    cases hc : s.core n with
    | none => rw [← h.out n hn hc, Yaf_Inode.narrow_toMem]
    | some dirty =>
        have hdirty : dirty = false := by
          cases dirty with
          | false => rfl
          | true => exact absurd hc hclean
        rw [hdirty] at hc
        exact (h.clean n hc).symm
  have hdirty : ((w.icache n).map InCore.dirty).getD false = false := by
    rw [h.core]
    cases hc : s.core n with
    | none => rfl
    | some dirty =>
        cases dirty with
        | false => rfl
        | true => exact absurd hc hclean
  have hgetD : (s.core n).getD false = false := by rw [← h.core, hdirty]
  rw [World.load, hdirty, Namespace.load, hslot, hgetD]
  exact h.setCore (h.range n hn) (UInt32.toNat_lt _) fun _ => Yaf_Inode.narrow_toMem.symm

/-- Forgetting an inode: it becomes what its slot says. -/
theorem setCore_none (h : Tracks w s) {n : ℕ} {i : Inode} (hi : s.Live n → (w.slot n).toMem = i) :
    Tracks (w.setCore n none) { s with
      node := Function.update s.node n i
      core := Function.update s.core n none } := by
  refine ⟨h.held.setCore_none n, h.io, h.sb, h.nblk, h.opens, h.now, h.fsuid, h.fsgid,
    h.iset, h.dset, fun m => ?_, fun m c hc => ?_, fun m c hc => ?_, fun m hm => ?_,
    fun m hm hcore => ?_, h.range⟩
  · simp only [Function.update_apply]
    split
    · rw [‹m = n›, World.icache_setCore_self]
      rfl
    · rw [World.icache_setCore_of_ne _ _ _ ‹_›]
      exact h.core m
  · by_cases hmn : m = n
    · rw [hmn, World.icache_setCore_self] at hc
      simp at hc
    · rw [World.icache_setCore_of_ne _ _ _ hmn] at hc
      exact h.unlocked m c hc
  · by_cases hmn : m = n
    · rw [hmn, World.icache_setCore_self] at hc
      simp at hc
    · rw [World.icache_setCore_of_ne _ _ _ hmn] at hc
      exact (h.node m c hc).trans (Function.update_of_ne hmn _ _).symm
  · simp only [Function.update_apply] at hm ⊢
    split
    · rw [if_pos ‹_›] at hm
      simp at hm
    · rw [if_neg ‹_›] at hm
      exact h.clean m hm
  · simp only [Function.update_apply] at hcore ⊢
    split
    · rw [‹m = n›] at hm ⊢
      exact hi hm
    · rw [if_neg ‹_›] at hcore
      exact h.out m hm hcore

/-- Releasing an inode. -/
theorem release (h : Tracks w s) {n : ℕ} (hn : n < w.sb.nr_i * 64) :
    Tracks ((w.markI n false).setCore n none) { s with
      iset := Function.update s.iset n false
      core := Function.update s.core n none } := by
  have hmark := h.markI hn false fun h => by simp at h
  have hnone := hmark.setCore_none (n := n) (i := s.node n) fun hlive => by
    simp [Namespace.Live] at hlive
  rwa [Function.update_eq_self] at hnone

/-- **A new inode.**  Nothing of the old slot is left in it. -/
theorem create (h : Tracks w s) {n : ℕ} (hn : n < w.sb.nr_i * 64) (d : Inode) (mode : UInt16) :
    Tracks (w.create n d mode) { s with
      iset := Function.update s.iset n true
      node := Function.update s.node n (s.newInode d mode)
      core := Function.update s.core n (some true) } := by
  have hnew : w.newInode d mode (w.slot n).toMem = s.newInode d mode := by
    rw [World.newInode, Namespace.newInode, h.fsuid, h.fsgid, h.now, inode_init_owner,
      inode_init_owner]
    split <;> rfl
  have hnew' : true = false → (w.slot n).toMem = (s.newInode d mode).narrow := fun hd => by
    simp at hd
  have hcore := h.setCore hn (Nat.two_pow_pos 32) hnew'
  have hmark := hcore.markI (n := n) hn true fun _ => by simp
  rw [World.create, hnew]
  exact hmark

/-- Writing an inode back. -/
theorem writeback (h : Tracks w s) {n : ℕ} (hn : s.core n ≠ none) :
    Tracks ((w.setCore n (some ⟨s.node n, false, false⟩)).flush n (s.node n))
      { s with core := Function.update s.core n (some false) } := by
  have hi := h.inode? hn
  have hlt := h.lt_of_core hn
  set w₁ := w.setCore n (some ⟨s.node n, false, false⟩) with hw₁
  have hin : w₁.inode? n = some (s.node n) := by rw [hw₁, World.inode?_setCore _ _ rfl, if_pos rfl]
  have hview := World.view_flush (w := w₁) hlt hin
  have hheld : w₁.Held := h.held.setCore rfl hlt (h.held.size_of_inode? hi)
  have hslot : ∀ m, m ≠ n → (w₁.flush n (s.node n)).slot m = w.slot m := by
    intro m hm
    rw [World.slot_flush, if_neg hm]
    rfl
  refine ⟨hheld.setBlock _ _, h.io, h.sb, h.nblk, h.opens, h.now, h.fsuid, h.fsgid, ?_, ?_,
    fun m => ?_, fun m c hc => ?_, fun m c hc => ?_, fun m hm => ?_, fun m hm hcore => ?_,
    h.range⟩
  · rw [hview]
    exact h.iset
  · rw [hview]
    exact h.dset
  · change (w₁.icache m).map InCore.dirty = Function.update s.core n (some false) m
    rw [hw₁, Function.update_apply]
    split
    · rw [‹m = n›, World.icache_setCore_self]
      rfl
    · rw [World.icache_setCore_of_ne _ _ _ ‹_›]
      exact h.core m
  · change w₁.icache m = some c at hc
    by_cases hmn : m = n
    · rw [hmn, hw₁, World.icache_setCore_self, Option.some_inj] at hc
      rw [← hc]
    · rw [hw₁, World.icache_setCore_of_ne _ _ _ hmn] at hc
      exact h.unlocked m c hc
  · change w₁.icache m = some c at hc
    by_cases hmn : m = n
    · rw [hmn, hw₁, World.icache_setCore_self, Option.some_inj] at hc
      rw [← hc, hmn]
    · rw [hw₁, World.icache_setCore_of_ne _ _ _ hmn] at hc
      exact h.node m c hc
  · simp only [Function.update_apply] at hm
    by_cases hmn : m = n
    · rw [hmn, World.slot_flush, if_pos rfl]
      rfl
    · rw [if_neg hmn] at hm
      rw [hslot m hmn]
      exact h.clean m hm
  · simp only [Function.update_apply] at hcore
    by_cases hmn : m = n
    · simp [hmn] at hcore
    · rw [if_neg hmn] at hcore
      rw [hslot m hmn]
      exact h.out m hm hcore

end Tracks

end Tracks

/-! ### Searches -/

section Search

variable {w : World} {s : Namespace}

namespace Refines

/-- The block of a slot is on the device. -/
theorem slotBlk_lt (hinv : s.Inv) {p j : ℕ} (hp : s.Live p) (hd : s.IsDir p)
    (hj : j < s.count p) : DNO2BID s.sb ((s.node p).slotBlk j) < s.nblk := by
  obtain ⟨hsize, hle⟩ := hinv.count_le hp hd
  have hres : (s.node p).blk (j / 128) ≠ RESERVED_DNO :=
    ((hinv.dir p hp hd).dense (j / 128) (by omega)).2 (by omega)
  exact (hinv.owned p (j / 128) hp hres).2 hd

/-- A scan of a directory of the tree. -/
theorem find?_slots (h : Refines w s) {p : ℕ} (hp : s.Live p) (hd : s.IsDir p)
    {f : Block → ℕ → Bool} {g : Option (List UInt8 × ℕ) → Bool}
    (hfg : ∀ b off j, Entry b off (s.slot p j) → f b off = g (s.slot p j)) :
    ((List.range (s.count p)).find? fun j =>
      f (w.disk (DNO2BID w.sb ((s.node p).blk (j / 128)).toNat)) (32 * (j % 128))) =
      (List.range (s.count p)).find? fun j => g (s.slot p j) := by
  refine List.find?_congr fun j hj => ?_
  exact hfg _ _ j (h.shows p j hp hd (List.mem_range.1 hj))

theorem no_noRead (h : Refines w s) (hinv : s.Inv) {p : ℕ} (hp : s.Live p) (hd : s.IsDir p) :
    ¬∃ k, k * 128 < s.count p ∧
      w.readable .scan (DNO2BID w.sb ((s.node p).blk k).toNat) = false := by
  rintro ⟨k, hk, hrd⟩
  have hblk := slotBlk_lt hinv hp hd hk
  rw [Inode.slotBlk, Nat.mul_div_cancel k (by decide), ← h.sb] at hblk
  rw [h.readable .scan hblk] at hrd
  simp at hrd

/-- **A lookup of the driver is a search of the tree.** -/
theorem wp_lookup (h : Refines w s) (hinv : s.Inv) {p : ℕ} (hp : s.holds S_ISDIR p) {q : Qstr}
    (hlen : q.len ≤ 24) {Q : ℤ → World → Prop} {E : Fault → Prop}
    (hQ : match s.named p q with
      | some j => Q (32 * j : ℕ) w
      | none => Q (-ENOENT) w) : wp (_yaf_lookup p q) Q E w := by
  have hlive := hinv.core p hp.1
  obtain ⟨hsize, hle⟩ := hinv.count_le hlive hp.2
  refine Yaf.wp_lookup (h.inode? hp.1) hsize hle hlen
    (fun hno => absurd hno (h.no_noRead hinv hlive hp.2)) ?_
  have hfind := h.find?_slots hlive hp.2 (f := isNamed q)
    (g := fun e => e.any fun e => e.1 == q.name) fun b off j he =>
      he.isNamed_eq (fun x hx => (hinv.name p j x hx).2) hlen
  rw [hfind]
  exact hQ

/-- The entry of a name. -/
theorem boundTo_eq (h : Refines w s) (hinv : s.Inv) {p : ℕ} (hp : s.holds S_ISDIR p) (q : Qstr) :
    w.boundTo p q = s.bound p q := by
  have hlive := hinv.core p hp.1
  rw [World.boundTo_eq (h.inode? hp.1), Namespace.bound]
  rcases Nat.lt_or_ge 24 q.len with hlen | hlen
  · have hval : value (_yaf_lookup p q) w = .ok (-ENAMETOOLONG) :=
      value_of_wp ((wp_lookup_of_lt hlen).2 rfl)
    rw [hval, if_neg (Nat.not_le.2 hlen)]
    exact if_neg (by decide)
  · have hval : value (_yaf_lookup p q) w =
        .ok (match s.named p q with
          | some j => ((32 * j : ℕ) : ℤ)
          | none => -ENOENT) := by
      refine value_of_wp (h.wp_lookup hinv hp hlen ?_)
      cases s.named p q <;> rfl
    rw [hval, if_pos hlen]
    cases hn : s.named p q with
    | none => exact if_neg (by decide)
    | some j =>
        obtain ⟨hj, ino, he⟩ := Namespace.named_eq_some hn
        have hentry := h.shows p j hlive hp.2 hj
        rw [he] at hentry
        have hdiv : 32 * j / 4096 = j / 128 := by omega
        have hmod : 32 * j % 4096 = 32 * (j % 128) := by omega
        have hpos : ((32 * j : ℕ) : ℤ) ≥ 0 := Int.natCast_nonneg _
        dsimp only
        rw [if_pos hpos, Int.toNat_natCast, YAF_BLOCK_SIZE_eq, hdiv, hmod, Option.bind_some, he]
        exact congrArg some hentry.2.1

end Refines

end Search

/-! ### Slots -/

section Slots

variable {w w' : World} {s s' : Namespace}

/-- Two slots in one place are the same slot. -/
theorem slot_sole (hinv : s.Inv) {p p' j j' : ℕ} (hp : s.Live p) (hd : s.IsDir p)
    (hj : j < s.count p) (hp' : s.Live p') (hb : (s.node p).slotBlk j = (s.node p').slotBlk j')
    (hm : j % 128 = j' % 128) : p = p' ∧ j = j' := by
  obtain ⟨hsize, hle⟩ := hinv.count_le hp hd
  have hres : (s.node p).blk (j / 128) ≠ RESERVED_DNO :=
    ((hinv.dir p hp hd).dense (j / 128) (by omega)).2 (by omega)
  obtain ⟨rfl, hk⟩ := hinv.sole p p' _ _ hp hp' hres (UInt32.toNat_inj.1 hb)
  exact ⟨rfl, by omega⟩

/-- **A slot that stays where it is.** -/
structure Stays (s s' : Namespace) (p j : ℕ) : Prop where
  live : s.Live p
  dir : s.IsDir p
  lt : j < s.count p
  blk : (s'.node p).slotBlk j = (s.node p).slotBlk j
  slot : s'.slot p j = s.slot p j

namespace Shows

/-- No block and no slot changes. -/
theorem congr (h : Shows w s) (hdata : w'.view.data = w.view.data)
    (hstay : ∀ p j, s'.Live p → s'.IsDir p → j < s'.count p → Stays s s' p j) : Shows w' s' := by
  intro p j hp hd hj
  have hs := hstay p j hp hd hj
  rw [hdata, hs.blk, hs.slot]
  exact h p j hs.live hs.dir hs.lt

/-- **One slot changes.** -/
theorem store (h : Shows w s) {d off : ℕ} {b : Block}
    (hdata : w'.view.data = Function.update w.view.data d b) (hoff : off % 32 = 0)
    (hframe : ∀ x, x < off ∨ off + 32 ≤ x → b x = w.view.data d x)
    (hslot : ∀ p j, s'.Live p → s'.IsDir p → j < s'.count p →
      (s'.node p).slotBlk j = d ∧ 32 * (j % 128) = off ∧ Entry b off (s'.slot p j) ∨
        Stays s s' p j ∧ ((s.node p).slotBlk j = d → 32 * (j % 128) ≠ off)) : Shows w' s' := by
  intro p j hp hd hj
  rcases hslot p j hp hd hj with ⟨hblk, rfl, he⟩ | ⟨hs, hne⟩
  · rw [hdata, hblk, Function.update_self]
    exact he
  · have he := h p j hs.live hs.dir hs.lt
    rw [hdata, hs.blk, hs.slot]
    by_cases hd' : (s.node p).slotBlk j = d
    · have hoff' := hne hd'
      rw [hd'] at he ⊢
      rw [Function.update_self]
      refine he.congr fun x hx => hframe _ ?_
      omega
    · rw [Function.update_of_ne hd']
      exact he

end Shows

/-! ### Files -/

/-- The block of a known byte is not one of a directory. -/
theorem known_ne (hinv : s.Inv) {n off p : ℕ} {b : UInt8} (hb : s.bytes n off = some b)
    (hp : s.Live p) (hd : s.IsDir p) (k : ℕ) :
    ((s.node n).blk (off / 4096)).toNat ≠ ((s.node p).blk k).toNat := by
  obtain ⟨hn, hf, hlt, -⟩ := hinv.known n off b hb
  have hle := (hinv.file n hn hf).le
  have hres := (hinv.file n hn hf).covered (off / 4096) (by omega) (by omega)
  intro he
  obtain ⟨rfl, -⟩ := hinv.sole n p _ k hn hp hres (UInt32.toNat_inj.1 he)
  exact hf hd

namespace Stores

/-- No block of a file changes. -/
theorem congr (h : Stores w s) (hdata : w'.view.data = w.view.data)
    (hstay : ∀ n off b, s'.bytes n off = some b → s.bytes n off = some b ∧
      (s'.node n).blk (off / 4096) = (s.node n).blk (off / 4096)) : Stores w' s' := by
  intro n off b hb
  obtain ⟨hold, hblk⟩ := hstay n off b hb
  rw [hdata, hblk]
  exact h n off b hold

/-- A block changes that no file has. -/
theorem store (h : Stores w s) {d : ℕ} {c : Block}
    (hdata : w'.view.data = Function.update w.view.data d c)
    (hstay : ∀ n off b, s'.bytes n off = some b → s.bytes n off = some b ∧
      (s'.node n).blk (off / 4096) = (s.node n).blk (off / 4096) ∧
      ((s.node n).blk (off / 4096)).toNat ≠ d) : Stores w' s' := by
  intro n off b hb
  obtain ⟨hold, hblk, hne⟩ := hstay n off b hb
  rw [hdata, hblk, Function.update_of_ne hne]
  exact h n off b hold

end Stores

namespace Refines

/-- Changing the times, or the links. -/
theorem touch (h : Refines w s) {n : ℕ} (hn : s.core n ≠ none) {f : Inode → Inode}
    (hsize : ∀ i, (f i).i_size = i.i_size) (hmode : ∀ i, (f i).i_mode = i.i_mode)
    (hblk : ∀ i k, (f i).blk k = i.blk k) : Refines (w.touch n f) (s.edit n f) := by
  have hnode : ∀ p, (s.edit n f).node p = if p = n then f (s.node n) else s.node p := fun p =>
    Function.update_apply _ _ _ _
  refine ⟨h.toTracks.touch hn ?_, h.shows.congr rfl fun p j hp hd hj => ?_,
    h.stores.congr rfl fun m off b hb => ⟨hb, ?_⟩⟩
  · rw [hsize]
    exact h.held.size_of_inode? (h.inode? hn)
  · have hsame : (s.edit n f).IsDir p = s.IsDir p ∧ (s.edit n f).count p = s.count p ∧
        ((s.edit n f).node p).slotBlk j = (s.node p).slotBlk j := by
      rw [Namespace.IsDir, Namespace.IsDir, Namespace.count, Namespace.count, Inode.slotBlk, hnode]
      split
      · rw [‹p = n›, hmode, hsize, hblk]
        exact ⟨rfl, rfl, rfl⟩
      · exact ⟨rfl, rfl, rfl⟩
    exact ⟨hp, hsame.1 ▸ hd, hsame.2.1 ▸ hj, hsame.2.2, rfl⟩
  · rw [hnode]
    split
    · rw [‹m = n›, hblk]
    · rfl

/-- Inodes that were written back, or read. -/
theorem of_attrs (h : Refines w s) (hinv : s.Inv) (ht : Tracks w' s')
    (hdata : w'.view.data = w.view.data) (hiset : s'.iset = s.iset) (hslot : s'.slot = s.slot)
    (hbytes : s'.bytes = s.bytes)
    (hnode : ∀ n, s.Live n → (s'.node n).attrs = (s.node n).attrs) : Refines w' s' := by
  have hblk : ∀ n off b, s'.bytes n off = some b → s.bytes n off = some b ∧
      (s'.node n).blk (off / 4096) = (s.node n).blk (off / 4096) := by
    intro n off b hb
    rw [hbytes] at hb
    exact ⟨hb, Namespace.blk_congr (hnode n (hinv.known n off b hb).1) _⟩
  refine ⟨ht, h.shows.congr hdata fun p j hp hd hj => ?_, h.stores.congr hdata hblk⟩
  have hlive : s.Live p := by rwa [Namespace.Live, hiset] at hp
  have hattrs := hnode p hlive
  rw [Namespace.IsDir, Namespace.mode_congr hattrs] at hd
  rw [Namespace.count, Namespace.size_congr hattrs] at hj
  refine ⟨hlive, hd, hj, ?_, by rw [hslot]⟩
  rw [Inode.slotBlk, Inode.slotBlk, Namespace.blk_congr hattrs]

/-- **One slot more**, in a place that no slot has. -/
theorem append (h : Refines w s) {p m : ℕ} (hp : s.core p ≠ none)
    (hsize : (s.node p).i_size = 32 * m) (hm : m < 1024) (hnone : s.slot p m = none)
    (hsole : ∀ q j, s.Live q → s.IsDir q → j < s.count q →
      (s.node q).slotBlk j = (s.node p).slotBlk m → j % 128 ≠ m % 128)
    (hfile : ∀ n off b, s.bytes n off = some b →
      ((s.node n).blk (off / 4096)).toNat ≠ (s.node p).slotBlk m) :
    Refines (w.append p (32 * m) ((s.node p).blk (m / 128))) (s.extend p) := by
  set dno := (s.node p).blk (m / 128) with hdno
  set b := Mem.wr32 (w.disk (DNO2BID w.sb dno.toNat)) (32 * m % 4096) RESERVED_INO with hb
  set w₁ := w.setBlock (DNO2BID w.sb dno.toNat) b with hw₁
  have hoff : 32 * m % 4096 = 32 * (m % 128) := by omega
  have hext : s.extend p = s.edit p fun i =>
      ({ i with i_size := 32 * m + 32 } : Inode).setTimes w.now := by
    rw [Namespace.extend, Namespace.edit, Namespace.edit, hsize, h.now]
  have hdata : (w.append p (32 * m) dno).view.data = Function.update w.view.data dno.toNat b := by
    rw [World.append, World.data_touch, World.view_setData]
    rfl
  have hnode : ∀ q, (s.extend p).node q = if q = p then
      ({ s.node p with i_size := 32 * m + 32 } : Inode).setTimes w.now else s.node q := by
    intro q
    rw [hext]
    exact Function.update_apply _ _ _ _
  have hstay : ∀ q j, s.Live q → (s.extend p).IsDir q → j < s.count q →
      Stays s (s.extend p) q j := by
    intro q j hq hd hj
    refine ⟨hq, ?_, hj, ?_, rfl⟩
    · rw [Namespace.IsDir, hnode] at hd
      split at hd
      · rw [‹q = p›]
        exact hd
      · exact hd
    · rw [Inode.slotBlk, Inode.slotBlk, hnode]
      split
      · rw [‹q = p›]
        rfl
      · rfl
  have hmod : 32 * m % 4096 % 32 = 0 := by omega
  refine ⟨?_, h.shows.store hdata hmod (fun x hx => ?_) fun q j hq hd hj => ?_,
    h.stores.store hdata fun n off b hb => ⟨hb, ?_, hfile n off b hb⟩⟩
  · rw [hext, World.append]
    refine (h.toTracks.setData dno.toNat b).touch hp ?_
    simp only [Inode.setTimes]
    omega
  · rw [hb, free_of_disjoint _ hx]
    rfl
  · rcases Nat.lt_or_ge j (s.count q) with hlt | hge
    · have hs := hstay q j hq hd hlt
      refine .inr ⟨hs, fun hblk => ?_⟩
      have hne := hsole q j hs.live hs.dir hlt hblk
      omega
    · -- the new slot
      have hqp : q = p := by
        by_contra hne
        rw [Namespace.count, hnode, if_neg hne] at hj
        exact absurd hj (Nat.not_lt.2 hge)
      subst q
      have hjm : j = m := by
        have hcount : s.count p = m := by
          rw [Namespace.count, hsize]
          omega
        rw [Namespace.count, hnode, if_pos rfl, Inode.i_size_setTimes] at hj
        dsimp only at hj
        omega
      subst j
      refine .inl ⟨?_, hoff.symm, ?_⟩
      · rw [Inode.slotBlk, hnode, if_pos rfl]
        rfl
      · have hfree : (s.extend p).slot p m = none := hnone
        rw [hfree, hb]
        exact entry_free (w.disk (DNO2BID w.sb dno.toNat)) (32 * m % 4096)
  · rw [hnode]
    split
    · rw [‹n = p›]
      rfl
    · rfl

/-- One slot more, in a block that is there. -/
theorem extend (h : Refines w s) (hinv : s.Inv) {p : ℕ} (hp : s.holds S_ISDIR p)
    (halign : s.count p % 128 ≠ 0) :
    Refines (w.append p (32 * s.count p) ((s.node p).blk (s.count p / 128))) (s.extend p) := by
  have hlive := hinv.core p hp.1
  obtain ⟨hsize, hle⟩ := hinv.count_le hlive hp.2
  refine h.append hp.1 hsize (by omega) (hinv.slot_of_le le_rfl) (fun q j hq hd hj hblk => ?_)
    fun n off b hb => known_ne hinv hb hlive hp.2 _
  intro hmod
  -- the last slot has a slot before it in the same block
  have hres : (s.node p).blk (s.count p / 128) ≠ RESERVED_DNO :=
    ((hinv.dir p hlive hp.2).dense (s.count p / 128) (by omega)).2 (by omega)
  obtain ⟨rfl, hk⟩ := hinv.sole p q _ _ hlive hq hres (UInt32.toNat_inj.1 hblk.symm)
  omega

/-- The allocator hands out the first clear bit. -/
theorem takeD_eq (h : Refines w s) : w.takeD =
    match (Mem.clears s.dset 32768).head? with
    | some d => (UInt32.ofNat d, w.markD d true)
    | none => (NO_BIT, w) := by
  have hrd : w.readable .bitmap (BID_DBP_MIN w.sb) = true := by
    refine w.readable_of_ioOk h.io _ ?_
    have h₁ := h.held.layout.d_min_le
    have h₂ := h.held.layout.i_pos
    have h₃ := h.held.layout.dbp_pos
    rw [BID_DBP_MIN_eq]
    omega
  cases hd : (Mem.clears s.dset 32768).head? with
  | none => simp only [World.takeD, hrd, if_true, h.held.clears_dbit, h.dset, hd]
  | some d => simp only [World.takeD, hrd, if_true, h.held.clears_dbit, h.dset, hd]

/-- **The first free block is entered in a block map**, where no slot and no byte is. -/
theorem grant (h : Refines w s) {n k d : ℕ} (hn : s.core n ≠ none) (hk : k < 8)
    (hd : (Mem.clears s.dset 32768).head? = some d)
    (hslot : s.IsDir n → ∀ j < s.count n, j / 128 ≠ k)
    (hfile : ∀ off b, s.bytes n off = some b → off / 4096 ≠ k) :
    Refines (w.takeD.2.touch n fun i => i.setBlk k w.takeD.1) (s.grant n k d) := by
  have htake : w.takeD = (UInt32.ofNat d, w.markD d true) := by
    rw [h.takeD_eq, hd]
  have hcov : d < w.sb.nr_dbp * 32768 := by
    have hlt := (Mem.mem_clears.1 (List.mem_of_head? hd)).1
    have := h.held.layout.dbp_pos
    omega
  have hnode : ∀ q, (s.grant n k d).node q =
      if q = n then (s.node n).setBlk k (UInt32.ofNat d) else s.node q := fun q =>
    Function.update_apply _ _ _ _
  have hblk : ∀ q l, ¬(q = n ∧ l = k) → ((s.grant n k d).node q).blk l = (s.node q).blk l := by
    intro q l hne
    rw [hnode]
    split
    · subst q
      rw [blk_setBlk (s.node n) hk, if_neg fun hl => hne ⟨rfl, hl⟩]
    · rfl
  have hsame : ∀ q, (s.grant n k d).IsDir q = s.IsDir q ∧
      (s.grant n k d).count q = s.count q := by
    intro q
    rw [Namespace.IsDir, Namespace.IsDir, Namespace.count, Namespace.count, hnode]
    split
    · rw [‹q = n›]
      exact ⟨rfl, rfl⟩
    · exact ⟨rfl, rfl⟩
  have hsize : ((s.node n).setBlk k (UInt32.ofNat d)).i_size < 2 ^ 32 := by
    have hold := h.held.size_of_inode? (h.inode? hn)
    exact hold
  have hdata : ((w.markD d true).touch n fun i => i.setBlk k (UInt32.ofNat d)).view.data =
      w.view.data := by
    rw [World.data_touch, World.view_markD w hcov, View.data_setD]
  rw [htake]
  refine ⟨(h.toTracks.markD hcov true).touch hn hsize,
    h.shows.congr hdata fun q j hq hdir hj => ?_,
    h.stores.congr hdata fun q off b hb => ⟨hb, hblk q _ ?_⟩⟩
  · rw [(hsame q).1] at hdir
    rw [(hsame q).2] at hj
    refine ⟨hq, hdir, hj, ?_, rfl⟩
    rw [Inode.slotBlk, Inode.slotBlk, hblk]
    rintro ⟨rfl, hjk⟩
    exact hslot hdir j hj hjk
  · rintro ⟨rfl, hoff⟩
    exact hfile off b hb hoff

/-- **One block more, and a slot in it.** -/
theorem attach (h : Refines w s) (hinv : s.Inv) {p : ℕ} (hp : s.holds S_ISDIR p)
    (hroom : s.count p ≠ 1024) (halign : s.count p % 128 = 0) {d : ℕ}
    (hd : (Mem.clears s.dset 32768).head? = some d) :
    Refines ((w.attach p (s.count p / 128)).append p (32 * s.count p) w.takeD.1)
      (s.attach p d) := by
  have hlive := hinv.core p hp.1
  obtain ⟨hsize, hle⟩ := hinv.count_le hlive hp.2
  obtain ⟨hd₁, hd₂⟩ := Mem.mem_clears.1 (List.mem_of_head? hd)
  have hnat := (Namespace.ofNat_clear hd₁).1
  set m := s.count p with hm
  have hk : m / 128 < 8 := by omega
  -- first the block is marked and entered, then a slot appended
  have hattach : s.attach p d = (s.grant p (m / 128) d).extend p := by
    rw [Namespace.extend, Namespace.grant, Namespace.edit_edit, Namespace.attach]
    refine Namespace.edit_congr _ ?_
    have hdiv : (s.node p).i_size / 4096 = m / 128 := by omega
    dsimp only
    rw [hdiv]
    rfl
  have hmark := h.grant (k := m / 128) hp.1 hk hd (fun _ j hj => by omega) fun off b hb =>
    absurd hp.2 (hinv.known p off b hb).2.1
  have hnode : ∀ q, (s.grant p (m / 128) d).node q =
      if q = p then (s.node p).setBlk (m / 128) (UInt32.ofNat d) else s.node q := fun q =>
    Function.update_apply _ _ _ _
  have hblk : ((s.grant p (m / 128) d).node p).blk (m / 128) = UInt32.ofNat d := by
    rw [hnode, if_pos rfl, blk_setBlk (s.node p) hk, if_pos rfl]
  have hown : ((s.grant p (m / 128) d).node p).slotBlk m = d := by rw [Inode.slotBlk, hblk, hnat]
  -- what is in another block was there before, and the block was free
  have hother : ∀ q k, s.Live q → (s.node q).blk k ≠ RESERVED_DNO → ¬(q = p ∧ k = m / 128) →
      (((s.grant p (m / 128) d).node q).blk k).toNat ≠ d := by
    intro q k hq hres hne
    have hsame : ((s.grant p (m / 128) d).node q).blk k = (s.node q).blk k := by
      rw [hnode]
      split
      · subst q
        rw [blk_setBlk (s.node p) hk, if_neg fun hl => hne ⟨rfl, hl⟩]
      · rfl
    intro he
    have hset := (hinv.owned q k hq hres).1
    rw [hsame] at he
    rw [he, hd₂] at hset
    simp at hset
  have hcore : (s.grant p (m / 128) d).core p ≠ none := by
    simp [Namespace.grant, Namespace.edit]
  have hsize' : ((s.grant p (m / 128) d).node p).i_size = 32 * m := by
    rw [hnode, if_pos rfl]
    exact hsize
  have hcount : ∀ q, (s.grant p (m / 128) d).IsDir q = s.IsDir q ∧
      (s.grant p (m / 128) d).count q = s.count q := by
    intro q
    rw [Namespace.IsDir, Namespace.IsDir, Namespace.count, Namespace.count, hnode]
    split
    · rw [‹q = p›]
      exact ⟨rfl, rfl⟩
    · exact ⟨rfl, rfl⟩
  have happend := hmark.append hcore hsize' (by omega) (hinv.slot_of_le le_rfl)
    (fun q j hq hdir hj hb => ?_) fun n off b hb => ?_
  · rw [hblk] at happend
    rw [append_attach, hattach]
    have htake : w.takeD.1 = UInt32.ofNat d := by rw [h.takeD_eq, hd]
    rw [htake] at happend ⊢
    exact happend
  · rw [(hcount q).1] at hdir
    rw [(hcount q).2] at hj
    obtain ⟨hsz, hc⟩ := hinv.count_le hq hdir
    have hres : (s.node q).blk (j / 128) ≠ RESERVED_DNO :=
      ((hinv.dir q hq hdir).dense (j / 128) (by omega)).2 (by omega)
    rw [hown] at hb
    refine absurd hb (hother q _ hq hres ?_)
    rintro ⟨rfl, hjk⟩
    omega
  · obtain ⟨hn, hf, hlt, -⟩ := hinv.known n off b hb
    have hfile := hinv.file n hn hf
    have hle := hfile.le
    rw [hown]
    refine hother n _ hn (hfile.covered (off / 4096) (by omega) (by omega)) ?_
    rintro ⟨rfl, -⟩
    exact hf hp.2

/-- **The search for a free slot.**  It fails in a full directory, and panics when the block for the
slot is not on the device. -/
theorem wp_get_free (h : Refines w s) (hinv : s.Inv) {p : ℕ} (hp : s.holds S_ISDIR p)
    {Q : ℤ → World → Prop} {E : Fault → Prop}
    (hsome : ∀ j s' w', s.getFree p = some (j, s') → Refines w' s' → Q (32 * j : ℕ) w')
    (hfull : s.getFree p = none → s.stranded p = false → Q (-ENOSPC) w)
    (hpanic : s.getFree p = none → s.stranded p = true → E .panic) :
    wp (yaf_get_free_dentry p) Q E w := by
  have hlive := hinv.core p hp.1
  obtain ⟨hsize, hle⟩ := hinv.count_le hlive hp.2
  have hnext : s.count p % 128 = 0 → (s.node p).blk (s.count p / 128) = RESERVED_DNO := by
    intro halign
    rcases Nat.lt_or_ge (s.count p / 128) 8 with hk | hk
    · by_contra hres
      have := ((hinv.dir p hlive hp.2).dense _ hk).1 hres
      omega
    · exact Inode.blk_of_le _ hk
  refine wp_yaf_get_free_dentry (h.inode? hp.1) h.held.layout hsize hle hnext
    (fun hno => absurd hno (h.no_noRead hinv hlive hp.2)) ?_
  have hfind := h.find?_slots hlive hp.2 (f := isFree) (g := Option.isNone)
    fun b off j he => he.isFree_eq
  rw [hfind]
  unfold Namespace.stranded at hfull hpanic
  unfold Namespace.getFree at hsome hfull hpanic
  unfold Namespace.freeSlot at hsome hfull hpanic
  cases hf : (List.range (s.count p)).find? fun j => (s.slot p j).isNone with
  | some j =>
      rw [hf] at hsome
      exact hsome j s w rfl h
  | none =>
      rw [hf] at hsome hfull hpanic
      dsimp only at hsome hfull hpanic ⊢
      split
      · refine hfull (if_pos ‹_›) ?_
        rw [decide_eq_false (not_not.2 ‹_›)]
        rfl
      rename_i hroom
      rw [if_neg hroom] at hsome hpanic
      rw [decide_eq_true hroom] at hpanic
      split
      · rename_i halign
        rw [if_pos halign] at hsome hpanic
        rw [decide_eq_true halign] at hpanic
        have htake := h.takeD_eq
        cases hd : (Mem.clears s.dset 32768).head? with
        | none =>
            rw [hd] at htake hpanic
            have hbid := DNO2BID_eq w.sb NO_BIT.toNat
            have hno : w.takeD.2.readable .dentry (DNO2BID w.sb w.takeD.1.toNat) = false := by
              have hlt := h.held.layout.nblk_lt
              have hbit : NO_BIT.toNat = 4294967294 := rfl
              have hpos := h.held.layout.ibp_pos
              have hpos' := h.held.layout.dbp_pos
              rw [htake, h.readable_eq, decide_eq_false_iff_not, ← h.nblk]
              dsimp only
              omega
            rw [if_neg (by rw [hno]; exact Bool.false_ne_true)]
            exact hpanic rfl rfl
        | some d =>
            rw [hd] at htake hsome hpanic
            dsimp only at htake hsome hpanic
            have hnat : (UInt32.ofNat d).toNat = d :=
              (Namespace.ofNat_clear (Mem.mem_clears.1 (List.mem_of_head? hd)).1).1
            have hrd : w.takeD.2.readable .dentry (DNO2BID w.sb w.takeD.1.toNat) =
                decide (DNO2BID s.sb d < s.nblk) := by
              have hmark : (w.markD d true).readable .dentry (DNO2BID w.sb d) =
                  w.readable .dentry (DNO2BID w.sb d) := by
                rw [World.readable, World.readable, World.markD, World.io_setBlock, h.io]
                rfl
              rw [htake, hnat, hmark, h.readable_eq, h.sb]
            rw [hrd]
            by_cases hdev : DNO2BID s.sb d < s.nblk
            · rw [if_pos hdev] at hsome
              rw [decide_eq_true hdev, if_pos rfl]
              exact hsome _ _ _ rfl (h.attach hinv hp hroom halign hd)
            · rw [if_neg hdev] at hpanic
              rw [decide_eq_false hdev, if_neg Bool.false_ne_true]
              refine hpanic rfl ?_
              rw [Option.any_some, decide_eq_false hdev]
              rfl
      · rename_i halign
        rw [if_neg halign] at hsome
        have hres : (s.node p).blk (s.count p / 128) ≠ RESERVED_DNO :=
          ((hinv.dir p hlive hp.2).dense _ (by omega)).2 (by omega)
        have hdev := (hinv.owned p _ hlive hres).2 hp.2
        rw [← h.sb] at hdev
        rw [h.readable .dentry hdev, if_pos rfl]
        exact hsome _ _ _ rfl (h.extend hinv hp halign)

/-- **A new inode, and the slot that leads to it.** -/
theorem link (h : Refines w s) (hinv : s.Inv) {p j n : ℕ} {q : Qstr} (mode : UInt16)
    (hp : s.holds S_ISDIR p) (hj : j < s.count p) (hn : s.iset n = false) (h₀ : n ≠ 0)
    (hlt : n < s.sb.nr_i * 64) (hlen : q.len ≤ 24) :
    Refines ((w.create n (s.node p) mode).link p (DNO2BID w.sb ((s.node p).slotBlk j))
      (32 * (j % 128)) n q) (s.link p j q n mode) := by
  have hlive := hinv.core p hp.1
  have hnp : n ≠ p := by
    rintro rfl
    rw [hlive.1] at hn
    simp at hn
  rw [← h.sb] at hlt
  set w₁ := w.create n (s.node p) mode with hw₁
  set d := (s.node p).slotBlk j with hd
  set b := fillDentry (w₁.disk (DNO2BID w.sb d)) (32 * (j % 128)) (UInt32.ofNat n) q with hb
  have hdata₁ : w₁.view.data = w.view.data := by
    rw [hw₁, World.view_create w (Nat.lt_of_lt_of_le hlt h.held.layout.ibp_covers)]
    rfl
  have hsb₁ : w₁.sb = w.sb := rfl
  have hnow₁ : w₁.now = s.now := h.now
  have hdata : (w₁.link p (DNO2BID w.sb d) (32 * (j % 128)) n q).view.data =
      Function.update w.view.data d b := by
    rw [World.link, World.data_touch, ← hdata₁]
    exact congrArg View.data (World.view_setData w₁ d b)
  set s₁ : Namespace := { s with
    iset := Function.update s.iset n true
    node := Function.update s.node n (s.newInode (s.node p) mode)
    core := Function.update s.core n (some true) } with hs₁
  have htracks : Tracks w₁ s₁ := h.toTracks.create hlt (s.node p) mode
  have hcore₁ : s₁.core p ≠ none := by
    rw [hs₁]
    simp only [Function.update_of_ne hnp.symm]
    exact hp.1
  have hnode : ∀ m, (s.link p j q n mode).node m = if m = p then
      { (s.node p).setTimes s.now with i_nlink := (s.node p).i_nlink + 1 }
      else if m = n then s.newInode (s.node p) mode else s.node m := by
    intro m
    simp only [Namespace.link, Namespace.edit, Namespace.put, Function.update_apply,
      if_neg hnp.symm]
  have hoff : 32 * (j % 128) % 32 = 0 := by omega
  refine ⟨?_, h.shows.store hdata hoff (fun x hx => ?_) fun a c ha hda hc => ?_,
    h.stores.store hdata fun m off b hb => ⟨hb, ?_, known_ne hinv hb hlive hp.2 _⟩⟩
  · rw [World.link, hnow₁]
    refine ((htracks.put p j (some (q.name, n))).setData d b).touch hcore₁ ?_
    have hsize : ((s₁.put p j (some (q.name, n))).node p).i_size < 2 ^ 32 :=
      htracks.held.size_of_inode? (htracks.inode? hcore₁)
    exact hsize
  · rw [hb, fillDentry_of_disjoint _ _ _ hx]
    exact congrFun (congrFun hdata₁ d) x
  · -- the new inode has no slots, and the other inodes are where they were
    have han : a ≠ n := by
      rintro rfl
      rw [Namespace.count, hnode, if_neg hnp, if_pos rfl] at hc
      exact absurd hc (by simp [Namespace.newInode])
    have hnode' : ((s.link p j q n mode).node a).i_mode = (s.node a).i_mode ∧
        ((s.link p j q n mode).node a).i_size = (s.node a).i_size ∧
        ∀ k, ((s.link p j q n mode).node a).blk k = (s.node a).blk k := by
      rw [hnode, if_neg han]
      split
      · rw [‹a = p›]
        exact ⟨rfl, rfl, fun _ => rfl⟩
      · exact ⟨rfl, rfl, fun _ => rfl⟩
    have hal : s.Live a := by
      obtain ⟨hset, ha₀⟩ := ha
      have : Function.update s.iset n true a = true := hset
      rw [Function.update_of_ne han] at this
      exact ⟨this, ha₀⟩
    rw [Namespace.IsDir, hnode'.1] at hda
    rw [Namespace.count, hnode'.2.1] at hc
    have hslotBlk : ((s.link p j q n mode).node a).slotBlk c = (s.node a).slotBlk c := by
      rw [Inode.slotBlk, Inode.slotBlk, hnode'.2.2]
    have hslot : (s.link p j q n mode).slot = Forest.put s.slot p j (some (q.name, n)) := rfl
    by_cases heq : a = p ∧ c = j
    · obtain ⟨rfl, rfl⟩ := heq
      refine .inl ⟨hslotBlk, rfl, ?_⟩
      rw [hslot, Forest.put_apply, if_pos ⟨rfl, rfl⟩]
      refine entry_fillDentry _ _ ?_ h₀ hlen
      have h₁ := h.held.layout.fits
      have h₂ := h.held.layout.nblk_lt
      omega
    · refine .inr ⟨⟨hal, hda, hc, hslotBlk, ?_⟩, fun hblk hmod => heq ?_⟩
      · rw [hslot, Forest.put_apply, if_neg heq]
      · obtain ⟨hap, hcj⟩ := slot_sole hinv hal hda hc hlive hblk (by omega)
        exact ⟨hap, hcj⟩
  · obtain ⟨hm, hf, -⟩ := hinv.known m off b hb
    have hmp : m ≠ p := by
      rintro rfl
      exact hf hp.2
    have hmn : m ≠ n := by
      rintro rfl
      rw [hm.1] at hn
      simp at hn
    rw [hnode, if_neg hmp, if_neg hmn]

/-- **The second half of a creation.** -/
theorem wp_linkDentry (h : Refines w s) (hinv : s.Inv) {p j : ℕ} {q : Qstr} {mode : UInt16}
    (hp : s.holds S_ISDIR p) (hj : j < s.count p) (hlen : q.len ≤ 24)
    (hnum : (Mem.clears s.iset 32768).head? ≠ none) {Q : Reply → World → Prop} {E : Fault → Prop}
    (hnew : ∀ n w', (Mem.clears s.iset 32768).head? = some n → n < s.sb.nr_i * 64 →
      Refines w' (s.link p j q n mode) → Q (0, some n) w')
    (hover : ∀ n, (Mem.clears s.iset 32768).head? = some n → ¬n < s.sb.nr_i * 64 →
      Q (-EINVAL, none) w) :
    wp (linkDentry p q mode (32 * j)) Q E w := by
  have hlive := hinv.core p hp.1
  obtain ⟨hsize, hle⟩ := hinv.count_le hlive hp.2
  have hdiv : 32 * j / 4096 = j / 128 := by omega
  have hmod : 32 * j % 4096 = 32 * (j % 128) := by omega
  have hdev := slotBlk_lt hinv hlive hp.2 hj
  rw [Inode.slotBlk, ← h.sb] at hdev
  rw [Yaf.wp_linkDentry (h.inode? hp.1) (by omega), hdiv, hmod, h.readable .dentry hdev,
    if_pos rfl]
  obtain ⟨n, hn⟩ := Option.ne_none_iff_exists'.1 hnum
  obtain ⟨hn₁, hn₂⟩ := Mem.mem_clears.1 (List.mem_of_head? hn)
  have hnotlive : ¬s.Live n := fun hl => by
    rw [hl.1] at hn₂
    simp at hn₂
  have h₀ : n ≠ 0 := by
    rintro rfl
    rw [hinv.zero] at hn₂
    simp at hn₂
  have hbit : (Mem.clears w.ibit 32768).head? = some n := by
    rw [h.held.clears_ibit, h.iset, hn]
  have hpos := h.held.layout.ibp_pos
  have hmin := h.held.layout.d_min_le
  have hmap : ∀ (w' : World), w'.io = ioOk → w'.nblk = w.nblk →
      ∀ bid, bid < 1 + w.sb.nr_ibp → w'.readable .bitmap bid = true := by
    intro w' hio hnblk bid hb
    refine w'.readable_of_ioOk hio _ ?_
    rw [hnblk]
    omega
  have hr : w.readable .bitmap (BID_IBP_MIN w.sb) = true :=
    hmap w h.io rfl _ (by rw [BID_IBP_MIN_eq]; omega)
  have hput : (w.markI n true).readable .bitmap (IDXI2BID w.sb n) = true :=
    hmap (w.markI n true) h.io rfl _ (by rw [IDXI2BID_eq]; omega)
  rcases Nat.lt_or_ge n (w.sb.nr_i * 64) with hlt | hge
  · have hcore : s.core n = none := by
      by_contra hc
      exact hnotlive (hinv.core n hc)
    have hnp : p ≠ n := by
      rintro rfl
      exact hnotlive hlive
    have hd : ((w.markI n true).load n).inode? p = some (s.node p) := by
      rw [World.load, World.inode?_setCore _ _ rfl, if_neg hnp]
      exact h.inode? hp.1
    have hrd : (w.markI n true).readable .inode (INO2BID w.sb n) = true :=
      (w.markI n true).readable_of_ioOk h.io _ (h.held.layout.INO2BID_lt hlt)
    have hask : (w.markI n true).io .iget_locked (w.markI n true).disk = true := by
      have hio : (w.markI n true).io = ioOk := h.io
      rw [hio]
      rfl
    rw [wp_yaf_new_inode_of_lt h.held.layout hr hbit h₀ hlt hd]
    dsimp only
    rw [h.inode?_none hcore]
    dsimp only
    rw [if_pos hask, if_pos hrd]
    rw [h.sb] at hlt
    exact hnew n _ hn hlt (h.link hinv mode hp hj hn₂ h₀ hlt hlen)
  · rw [wp_yaf_new_inode_of_le h.held.layout hr hbit h₀ hge, if_pos hput]
    exact hover n hn (by rw [← h.sb]; omega)

end Refines

end Slots

end Yaf
