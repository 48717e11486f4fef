/-
**What a step of the tree can be.**

A step of the tree ends in one of a few ways: refused with nothing changed, a name looked up, an
entry added or removed, a directory with a slot more than it needs, bytes stored in a file, or a
file with blocks more than it needs; and there is what the kernel does on its own.  This module
lists the ways once.  What a step leaves of the inodes, of the slots and of the bytes is then read
off the list.

Main definitions:

* `Yaf.Op.makes`, `Yaf.Op.takes` — what an operation creates, and what it removes;
* `Yaf.Namespace.Outcome` — **the ways in which a step ends**.

Main results:

* `Yaf.Namespace.Inv.outcome` — every step ends in one of these ways.
-/

import Yaf.Simulation

set_option relaxedAutoImplicit false
set_option autoImplicit false

namespace Yaf

open Prog

variable {s s' : Namespace}

/-! ### The ways in which a step ends -/

/-- What an operation creates: the directory, the name, and the mode of the new inode. -/
def Op.makes : Op → Option (ℕ × Qstr × UInt16)
  | .create p q mode => some (p, q, mode ||| S_IFREG)
  | .mkdir p q mode => some (p, q, mode ||| S_IFDIR)
  | _ => none

/-- What an operation removes: the directory, the name, and the number the name is bound to. -/
def Op.takes : Op → Option (ℕ × Qstr × ℕ)
  | .unlink p q ino | .rmdir p q ino => some (p, q, ino)
  | _ => none

namespace Namespace

/-- **The ways in which a step ends.** -/
inductive Outcome (s : Namespace) : Op → Reply → Namespace → Prop
  /-- an error, and nothing changed -/
  | refused {op : Op} {e : ℤ} (he : e < 0) : Outcome s op (e, none) s
  /-- a name that is bound to nothing -/
  | missed {p : ℕ} {q : Qstr} (hp : s.Live p) (hb : s.bound p q = none) :
      Outcome s (.lookup p q) (0, none) (s.edit p fun i => { i with i_atime := s.now })
  /-- a name that is bound -/
  | found {p n : ℕ} {q : Qstr} (hp : s.Live p) (hb : s.bound p q = some n) (hn : s.Live n) :
      Outcome s (.lookup p q) (0, none) ((s.load n).edit p fun i => { i with i_atime := s.now })
  /-- a free slot was found, and no inode number -/
  | full {op : Op} {p j : ℕ} {q : Qstr} {mode : UInt16} {s₁ : Namespace}
      (hop : op.makes = some (p, q, mode)) (hp : s.holds S_ISDIR p)
      (hg : s.getFree p = some (j, s₁)) : Outcome s op (-EINVAL, none) s₁
  /-- a new inode, and an entry for it -/
  | linked {op : Op} {p j n : ℕ} {q : Qstr} {mode : UInt16} {s₁ : Namespace}
      (hop : op.makes = some (p, q, mode)) (hp : s.holds S_ISDIR p) (hb : s.bound p q = none)
      (hlen : q.len ≤ 24) (hg : s.getFree p = some (j, s₁)) (hn : s.iset n = false)
      (hlt : n < s.sb.nr_i * 64) : Outcome s op (0, some n) (s₁.link p j q n mode)
  /-- an entry removed, with the inode it led to -/
  | dropped {op : Op} {p j ino : ℕ} {q : Qstr} (hop : op.takes = some (p, q, ino))
      (he : s.slot p j = some (q.name, ino)) (hleaf : ∀ j', s.slot ino j' = none) :
      Outcome s op (0, none) (s.drop p j ino)
  /-- the blocks of a write were taken, and the last of them is not on the device -/
  | grown {n pos copied k : ℕ} {data : List UInt8} {s₁ : Namespace} (hn : s.Live n)
      (hf : ¬s.IsDir n) (hg : Grown s n k (countAssigned (s.node n) YAF_IBLOCKS 0) s₁) :
      Outcome s (.write n pos data copied) (- EIO, none) s₁
  /-- bytes stored in a file -/
  | stored {n pos copied k : ℕ} {data : List UInt8} {s₁ : Namespace} (hn : s.Live n)
      (hf : ¬s.IsDir n) (hlen : pos + data.length ≤ 32768)
      (hg : Grown s n k (countAssigned (s.node n) YAF_IBLOCKS 0) s₁) :
      Outcome s (.write n pos data copied) ((copied : ℤ), none) (s₁.store n pos data copied)
  | opened {n : ℕ} : Outcome s (.openFile n) (0, none)
      { s with opens := Function.update s.opens n (s.opens n + 1) }
  | closed {n : ℕ} : Outcome s (.closeFile n) (0, none)
      { s with opens := Function.update s.opens n (s.opens n - 1) }
  | saved {n : ℕ} : Outcome s (.writeInode n) (0, none)
      { s with core := Function.update s.core n (some false) }
  | evicted {n : ℕ} (hn : s.Live n) : Outcome s (.evict n) (0, none) { s with
      node := Function.update s.node n (s.node n).narrow
      core := Function.update s.core n none }
  | ticked {now : ℤ} {fsuid fsgid : UInt32} : Outcome s (.tick now fsuid fsgid) (0, none)
      { s with now := now, fsuid := fsuid, fsgid := fsgid }

/-- A creation. -/
theorem create_outcome {op : Op} {p : ℕ} {q : Qstr} {mode : UInt16}
    (hop : op.makes = some (p, q, mode)) (hp : s.holds S_ISDIR p) (hb : s.bound p q = none)
    {r : Reply} (hs : s.create p q mode = some (r, s')) : Outcome s op r s' := by
  unfold Namespace.create at hs
  split at hs
  · rename_i hlen
    obtain ⟨⟨j, s₁⟩, hg, hs⟩ := Option.bind_eq_some_iff.1 hs
    obtain ⟨n, hn, hs⟩ := Option.map_eq_some_iff.1 hs
    split at hs
    · cases hs
      exact .linked hop hp hb hlen hg (Mem.mem_clears.1 (List.mem_of_head? hn)).2 ‹_›
    · cases hs
      exact .full hop hp hg
  · cases hs
    exact .refused (by decide)

/-- A removal. -/
theorem Inv.remove_outcome (h : s.Inv) {op : Op} {p ino : ℕ} {q : Qstr}
    (hop : op.takes = some (p, q, ino)) (hb : s.bound p q = some ino)
    (hlink : s.IsDir ino → ¬(s.node ino).i_nlink > 1) {r : Reply}
    (hs : s.remove p q ino = some (r, s')) : Outcome s op r s' := by
  obtain ⟨j, he, hrm⟩ := remove_of_bound hb
  rw [hrm] at hs
  cases hs
  exact .dropped hop he (h.leaf (h.tree.child_alive he) hlink)

/-- **Every step ends in one of these ways.** -/
theorem Inv.outcome (h : s.Inv) {op : Op} (hpre : s.Pre op) {r : Reply}
    (hs : s.step op = some (r, s')) : Outcome s op r s' := by
  cases op with
  | lookup p q =>
      obtain rfl : (s.lookup p q).1 = r := congrArg Prod.fst (Option.some.inj hs)
      obtain rfl : (s.lookup p q).2 = s' := congrArg Prod.snd (Option.some.inj hs)
      have hp := h.core p hpre.1
      unfold Namespace.lookup
      split
      · cases hb : s.bound p q with
        | none => exact .missed hp hb
        | some n =>
            obtain ⟨-, j, -, he⟩ := bound_eq_some hb
            exact .found hp hb (h.tree.child_alive he)
      · exact .refused (by decide)
  | create p q mode => exact create_outcome rfl hpre.1 hpre.2.1 hs
  | mkdir p q mode => exact create_outcome rfl hpre.1 hpre.2.1 hs
  | unlink p q ino =>
      obtain ⟨-, hb, hfile, -⟩ := hpre
      refine h.remove_outcome rfl hb (fun hd => ?_) hs
      have hnot := hfile.2
      rw [Bool.not_eq_true'] at hnot
      exact absurd (hd.symm.trans hnot) (by decide)
  | rmdir p q ino =>
      obtain ⟨-, hb, -⟩ := hpre
      simp only [Namespace.step] at hs
      split at hs
      · cases hs
        exact .refused (by decide)
      · rename_i hlink
        exact h.remove_outcome rfl hb (fun _ => hlink) hs
  | write n pos data copied =>
      obtain ⟨hreg, hlen, -⟩ := hpre
      have hn := h.core n hreg.1
      obtain ⟨rfl, rfl⟩ | ⟨hle, s₁, hg, -, ⟨-, rfl, rfl⟩ | ⟨-, rfl, rfl⟩⟩ :=
        h.write_cases hn hreg.not_isDir hlen hs
      · exact .refused (by decide)
      · exact .stored hn hreg.not_isDir hle hg
      · exact .grown hn hreg.not_isDir hg
  | openFile n =>
      cases hs
      exact .opened
  | closeFile n =>
      cases hs
      exact .closed
  | writeInode n =>
      cases hs
      exact .saved
  | evict n =>
      cases hs
      exact .evicted (h.core n (by rw [hpre.1]; exact Option.some_ne_none _))
  | tick =>
      cases hs
      exact .ticked
  | setSize | device => simp [Namespace.step] at hs

end Namespace

end Yaf
