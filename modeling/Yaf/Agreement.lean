/-
**Listing and lookup agree.**

`yaf_iterate_shared` emits the first `d_name_len` bytes of a slot, `_yaf_lookup` compares up to 24
bytes as strings that end at a NUL.  The slots of a directory hold names of 1 to 24 bytes without a
NUL, each name once, so both see the same names, also those of 24 bytes, which have no
terminator.

Main results:

* `Yaf.Namespace.Inv.bound_iff` — a name is bound exactly when a slot holds it;
* `Yaf.agree_of_run` — **a listing emits exactly the entries that lookups find**, each once.
-/

import Yaf.Stale
import Yaf.Resume

set_option relaxedAutoImplicit false
set_option autoImplicit false

namespace Yaf

open Prog

variable {w : World} {s : Namespace} {p : ℕ}

/-- **A name is bound exactly when a slot holds it.** -/
theorem Namespace.Inv.bound_iff (h : s.Inv) {q : Qstr} {ino : ℕ} :
    s.bound p q = some ino ↔ ∃ j, s.slot p j = some (q.name, ino) := by
  constructor
  · intro hb
    obtain ⟨-, j, -, he⟩ := bound_eq_some hb
    exact ⟨j, he⟩
  · rintro ⟨j, he⟩
    have hlen : q.len ≤ 24 := (h.name p j _ he).2.2
    cases hb : s.bound p q with
    | none =>
        have hnone := bound_eq_none hb hlen
        exact absurd he (named_eq_none hnone (h.isDir p j _ he).2 ino)
    | some ino' =>
        -- a name is there once
        obtain ⟨-, j', -, he'⟩ := bound_eq_some hb
        obtain rfl := h.tree.names p j j' _ _ _ he he'
        rw [he, Option.some_inj, Prod.mk.injEq] at he'
        rw [he'.2]

namespace Models

/-- An entry of a directory is a slot of the tree. -/
theorem mem_entries (h : Models w s) (hp : s.holds S_ISDIR p) {e : DirEntry} :
    e ∈ w.entries (s.node p) ↔ ∃ j, s.slot p j = some (e.name, e.ino) := by
  have hlive := h.inv.core p hp.1
  have hentries := h.entries_eq hlive hp.2
  rw [h.logical hlive] at hentries
  rw [hentries, List.mem_filterMap]
  constructor
  · rintro ⟨j, -, he⟩
    obtain ⟨x, hx, rfl⟩ := Option.map_eq_some_iff.1 he
    exact ⟨j, hx⟩
  · rintro ⟨j, he⟩
    refine ⟨j, List.mem_range.2 (h.inv.isDir p j _ he).2, ?_⟩
    rw [he]
    rfl

/-- No name is emitted twice. -/
theorem nodup_entries (h : Models w s) (hp : s.holds S_ISDIR p) :
    ((w.entries (s.node p)).map DirEntry.name).Nodup := by
  have hlive := h.inv.core p hp.1
  have hentries := h.entries_eq hlive hp.2
  rw [h.logical hlive] at hentries
  rw [hentries, List.map_filterMap]
  refine List.nodup_range.filterMap fun j j' name hj hj' => ?_
  obtain ⟨e, he, rfl⟩ := Option.map_eq_some_iff.1 hj
  obtain ⟨e', he', hname⟩ := Option.map_eq_some_iff.1 hj'
  obtain ⟨x, hx, rfl⟩ := Option.map_eq_some_iff.1 he
  obtain ⟨x', hx', rfl⟩ := Option.map_eq_some_iff.1 he'
  have hsame : x'.1 = x.1 := hname
  refine h.inv.tree.names p j j' x.1 x.2 x'.2 hx ?_
  rw [hx', ← hsame]

/-- **The entries of a directory are what lookups find.** -/
theorem mem_entries_iff_bound (h : Models w s) (hp : s.holds S_ISDIR p) {e : DirEntry} :
    e ∈ w.entries (s.node p) ↔
      ∃ q : Qstr, q.name = e.name ∧ w.boundTo p q = some e.ino := by
  rw [h.mem_entries hp]
  constructor
  · rintro ⟨j, he⟩
    obtain ⟨hne, hnul, -⟩ := h.inv.name p j _ he
    refine ⟨⟨e.name, hne, hnul⟩, rfl, ?_⟩
    rw [h.boundTo_eq h.inv hp]
    exact h.inv.bound_iff.2 ⟨j, he⟩
  · rintro ⟨q, hname, hb⟩
    rw [h.boundTo_eq h.inv hp] at hb
    rw [← hname]
    exact h.inv.bound_iff.1 hb

end Models

/-- **Listing and lookup agree** in every state of a run of operations on directories: a listing
from the start, by a sink that takes everything, emits the two dots and then, each name once,
exactly the entries that a lookup of that name finds. -/
theorem agree_of_run {v : Volume} (h : v.Ok) {l : List (Op × Reply)}
    (hrun : Run step (fun w op => op.Tame w) (fresh v) l w) {dir : ℕ}
    (hdir : w.holds S_ISDIR dir = true) (parent : ℕ) :
    ∃ es pos, value (yaf_iterate_shared dir parent ⟨0, none, []⟩) w =
        .ok (0, ⟨pos, none, ⟨[46], dir⟩ :: ⟨[46, 46], parent⟩ :: es⟩) ∧
      (es.map DirEntry.name).Nodup ∧
      ∀ e, e ∈ es ↔ ∃ q : Qstr, q.name = e.name ∧ w.boundTo dir q = some e.ino := by
  obtain ⟨s, hs⟩ := exists_models_of_run h hrun
  have hp := hs.holds_iff.1 hdir
  have hsize := (hs.inv.dir dir (hs.inv.core dir hp.1) hp.2).le
  refine ⟨w.entries (s.node dir), 32 * slots (s.node dir).i_size + 2, ?_, hs.nodup_entries hp,
    fun e => hs.mem_entries_iff_bound hp⟩
  rw [value_iterate_start (hs.inode? hp.1) hp.2 hsize (hs.dirReadable hp)]
  have hdots : dir_emit_dots ⟨0, none, []⟩ dir parent =
      (true, ⟨2, none, [⟨[46], dir⟩, ⟨[46, 46], parent⟩]⟩) := rfl
  rw [hdots, if_pos rfl, emitAll_none]
  rfl

/-- A name of 24 bytes is emitted and found in full. -/
theorem agree_small : ∃ l w, Run step (fun w op => op.Tame w) (fresh .small) l w ∧
    w.boundTo ROOT_INO (.letters 23) = some 2 ∧ w.boundTo ROOT_INO (.letters 22) = none ∧
    ∃ es pos, value (yaf_iterate_shared ROOT_INO ROOT_INO ⟨0, none, []⟩) w =
        .ok (0, ⟨pos, none, ⟨[46], ROOT_INO⟩ :: ⟨[46, 46], ROOT_INO⟩ :: es⟩) ∧
      (es.map DirEntry.name).Nodup ∧
      ∀ e, e ∈ es ↔ ∃ q : Qstr, q.name = e.name ∧ w.boundTo ROOT_INO q = some e.ino := by
  obtain ⟨l, w, hrun, hp⟩ := Volume.exists_run Volume.small_ok (fun w op => op.Tame w)
    [.create 1 (.letters 23) 0, .mkdir 1 (.letters 22) 0, .create 1 (.letters 0) 0,
      .rmdir 1 (.letters 22) 3]
    (fun _ w => w.holds S_ISDIR ROOT_INO &&
      decide (w.boundTo ROOT_INO (.letters 23) = some 2) &&
        decide (w.boundTo ROOT_INO (.letters 22) = none)) (by decide +kernel)
  rw [Bool.and_eq_true, Bool.and_eq_true, decide_eq_true_eq, decide_eq_true_eq] at hp
  obtain ⟨⟨hdir, hfound⟩, hgone⟩ := hp
  exact ⟨l, w, hrun, hfound, hgone, agree_of_run Volume.small_ok hrun hdir ROOT_INO⟩

end Yaf
