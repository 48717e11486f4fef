/-
**Trees of named slots.**

Every node has a table of slots, and an occupied slot holds a name and leads to another node.
Such a table is a tree when every node but the root is led to by exactly one slot, can be reached
from the root, and no table has a name twice.  Filling a free slot with a new node, and emptying a
slot whose node is a leaf, keep a tree a tree.

Main definitions:

* `Forest.put` — a table with one slot changed;
* `Forest.Edge`, `Forest.Binds` — a slot of one node leads to another, and has a name;
* `Forest.Tree` — the tables of the nodes that are `alive` make a tree;
* `Forest.degree` — how many of the first `m` slots of a node are occupied.

Main results:

* `Forest.Tree.link`, `Forest.Tree.unlink` — **the two changes keep the tree**;
* `Forest.binds_put_some`, `Forest.binds_put_none` — they bind a name, and unbind it;
* `Forest.degree_put_some`, `Forest.degree_put_none` — and count.
-/

import Mathlib.Logic.Relation
import Mathlib.Logic.Function.Basic
import Mathlib.Data.Nat.Count

set_option relaxedAutoImplicit false
set_option autoImplicit false

namespace Forest

variable {ν κ : Type}

/-- The slots of every node: a name, and the node it leads to. -/
abbrev Slots (ν κ : Type) : Type := ν → ℕ → Option (κ × ν)

/-- A slot of `p` leads to `c`. -/
def Edge (s : Slots ν κ) (p c : ν) : Prop := ∃ j k, s p j = some (k, c)

/-- A slot of `p` with the name `k` leads to `c`. -/
def Binds (s : Slots ν κ) (p : ν) (k : κ) (c : ν) : Prop := ∃ j, s p j = some (k, c)

/-! ### Trees -/

/-- **The slots of the nodes that are alive make a tree.** -/
structure Tree (s : Slots ν κ) (root : ν) (alive : ν → Prop) : Prop where
  /-- exactly the nodes that can be reached are alive -/
  reach : ∀ n, alive n ↔ Relation.ReflTransGen (Edge s) root n
  source : ∀ p j e, s p j = some e → alive p
  target : ∀ p j k, s p j ≠ some (k, root)
  /-- one slot leads to a node -/
  unique : ∀ p j k p' j' k' c, s p j = some (k, c) → s p' j' = some (k', c) → p = p' ∧ j = j'
  /-- a node has a name once -/
  names : ∀ p j j' k c c', s p j = some (k, c) → s p j' = some (k, c') → j = j'

namespace Tree

variable {s : Slots ν κ} {root : ν} {alive : ν → Prop}

theorem root_alive (h : Tree s root alive) : alive root := (h.reach root).2 .refl

/-- A node that a slot leads to is alive. -/
theorem child_alive (h : Tree s root alive) {p : ν} {j : ℕ} {k : κ} {c : ν}
    (he : s p j = some (k, c)) : alive c :=
  (h.reach c).2 (((h.reach p).1 (h.source p j _ he)).tail ⟨j, k, he⟩)

theorem child_ne_root (h : Tree s root alive) {p : ν} {j : ℕ} {k : κ} {c : ν}
    (he : s p j = some (k, c)) : c ≠ root := by
  rintro rfl
  exact h.target p j k he

/-- A node other than the root has a slot that leads to it. -/
theorem exists_parent (h : Tree s root alive) {n : ν} (hn : alive n) (hr : n ≠ root) :
    ∃ p j k, s p j = some (k, n) := by
  cases (h.reach n).1 hn with
  | refl => exact absurd rfl hr
  | tail _ he =>
      obtain ⟨j, k, he⟩ := he
      exact ⟨_, j, k, he⟩

/-- Only what is alive matters. -/
theorem congr {alive' : ν → Prop} (h : Tree s root alive) (ha : ∀ n, alive' n ↔ alive n) :
    Tree s root alive' := by
  obtain rfl : alive' = alive := funext fun n => propext (ha n)
  exact h

/-- A tree of one node. -/
theorem single (root : ν) : Tree (fun _ _ => (none : Option (κ × ν))) root (· = root) := by
  refine ⟨fun n => ?_, fun _ _ _ h => by simp at h, fun _ _ _ h => by simp at h,
    fun _ _ _ _ _ _ _ h => by simp at h, fun _ _ _ _ _ _ h => by simp at h⟩
  constructor
  · rintro rfl
    exact .refl
  · intro h
    cases h with
    | refl => rfl
    | tail _ he =>
        obtain ⟨j, k, he⟩ := he
        simp at he

end Tree

/-! ### Changing a slot -/

section Put

variable [DecidableEq ν]

/-- One slot changed. -/
def put (s : Slots ν κ) (p : ν) (j : ℕ) (e : Option (κ × ν)) : Slots ν κ :=
  Function.update s p (Function.update (s p) j e)

theorem put_apply (s : Slots ν κ) (p : ν) (j : ℕ) (e : Option (κ × ν)) (p' : ν) (j' : ℕ) :
    put s p j e p' j' = if p' = p ∧ j' = j then e else s p' j' := by
  rw [put, Function.update_apply]
  by_cases hp : p' = p
  · subst p'
    simp only [if_true, Function.update_apply, true_and]
  · simp only [hp, false_and, if_false]

@[simp] theorem put_self (s : Slots ν κ) (p : ν) (j : ℕ) (e : Option (κ × ν)) :
    put s p j e p j = e := by
  simp [put_apply]

theorem put_of_ne (s : Slots ν κ) {p p' : ν} {j j' : ℕ} (e : Option (κ × ν))
    (h : p' ≠ p ∨ j' ≠ j) : put s p j e p' j' = s p' j' := by
  rw [put_apply, if_neg]
  rintro ⟨rfl, rfl⟩
  rcases h with h | h <;> exact h rfl

/-- An entry in a free slot binds its name. -/
theorem binds_put_some {s : Slots ν κ} {p p' : ν} {j : ℕ} {k k' : κ} {c c' : ν}
    (hfree : s p j = none) : Binds (put s p j (some (k, c))) p' k' c' ↔
      (p' = p ∧ k' = k ∧ c' = c) ∨ Binds s p' k' c' := by
  constructor
  · rintro ⟨j', he⟩
    rw [put_apply] at he
    split at he
    · obtain ⟨rfl, -⟩ := ‹p' = p ∧ j' = j›
      cases he
      exact .inl ⟨rfl, rfl, rfl⟩
    · exact .inr ⟨j', he⟩
  · rintro (⟨rfl, rfl, rfl⟩ | ⟨j', he⟩)
    · exact ⟨j, put_self s p' j _⟩
    · refine ⟨j', (put_of_ne s _ ?_).trans he⟩
      by_contra hne
      rw [not_or, not_not, not_not] at hne
      rw [hne.1, hne.2, hfree] at he
      simp at he

/-- A slot that is emptied unbinds its name. -/
theorem binds_put_none {s : Slots ν κ} {root : ν} {alive : ν → Prop} (h : Tree s root alive)
    {p p' : ν} {j : ℕ} {k k' : κ} {c c' : ν} (he : s p j = some (k, c)) :
    Binds (put s p j none) p' k' c' ↔ Binds s p' k' c' ∧ ¬(p' = p ∧ k' = k) := by
  constructor
  · rintro ⟨j', he'⟩
    rw [put_apply] at he'
    split at he'
    · simp at he'
    · rename_i hne
      refine ⟨⟨j', he'⟩, ?_⟩
      rintro ⟨rfl, rfl⟩
      exact hne ⟨rfl, h.names p' j' j k' c' c he' he⟩
  · rintro ⟨⟨j', he'⟩, hne⟩
    refine ⟨j', (put_of_ne s _ ?_).trans he'⟩
    by_contra hsame
    rw [not_or, not_not, not_not] at hsame
    rw [hsame.1, hsame.2, he, Option.some_inj, Prod.mk.injEq] at he'
    exact hne ⟨hsame.1, he'.1.symm⟩

namespace Tree

variable {s : Slots ν κ} {root : ν} {alive : ν → Prop}

/-- **A new node in a free slot.** -/
theorem link (h : Tree s root alive) {p : ν} {j : ℕ} {k : κ} {c : ν} (hp : alive p)
    (hfree : s p j = none) (hc : ¬alive c) (hk : ∀ j' c', s p j' ≠ some (k, c')) :
    Tree (put s p j (some (k, c))) root fun n => alive n ∨ n = c := by
  -- an occupied slot is the new one, or was occupied before
  have hold : ∀ {p' j' e}, put s p j (some (k, c)) p' j' = some e →
      (p' = p ∧ j' = j ∧ e = (k, c)) ∨ s p' j' = some e := by
    intro p' j' e he
    rw [put_apply] at he
    split at he
    · exact .inl ⟨‹_ ∧ _›.1, ‹_ ∧ _›.2, (Option.some.inj he).symm⟩
    · exact .inr he
  have hmono : ∀ {p' c'}, Edge s p' c' → Edge (put s p j (some (k, c))) p' c' := by
    rintro p' c' ⟨j', k', he⟩
    refine ⟨j', k', ?_⟩
    rw [put_of_ne _ _ ?_, he]
    by_contra hne
    obtain ⟨rfl, rfl⟩ := not_or.1 hne |>.imp not_not.1 not_not.1
    rw [hfree] at he
    simp at he
  have hreach : ∀ {n}, Relation.ReflTransGen (Edge s) root n →
      Relation.ReflTransGen (Edge (put s p j (some (k, c)))) root n := by
    intro n hr
    induction hr with
    | refl => exact .refl
    | tail _ he ih => exact ih.tail (hmono he)
  -- no slot led to the new node before
  have hnew : ∀ {p' j' k'}, s p' j' ≠ some (k', c) := fun he => hc (h.child_alive he)
  refine ⟨fun n => ⟨?_, fun hr => ?_⟩, fun p' j' e he => ?_, fun p' j' k' he => ?_,
    fun p₁ j₁ k₁ p₂ j₂ k₂ c' h₁ h₂ => ?_, fun p' j₁ j₂ k' c₁ c₂ h₁ h₂ => ?_⟩
  · rintro (hn | rfl)
    · exact hreach ((h.reach n).1 hn)
    · exact (hreach ((h.reach p).1 hp)).tail ⟨j, k, put_self s p j _⟩
  · induction hr with
    | refl => exact .inl h.root_alive
    | tail _ he ih =>
        obtain ⟨j', k', he⟩ := he
        rcases hold he with ⟨-, -, he⟩ | he
        · exact .inr (Prod.mk.inj he).2
        · exact .inl (h.child_alive he)
  · rcases hold he with ⟨rfl, -, -⟩ | he
    · exact .inl hp
    · exact .inl (h.source p' j' e he)
  · rcases hold he with ⟨-, -, he⟩ | he
    · exact hc ((Prod.mk.inj he).2 ▸ h.root_alive)
    · exact h.target p' j' k' he
  · rcases hold h₁ with ⟨rfl, rfl, e₁⟩ | h₁
    · rcases hold h₂ with ⟨rfl, rfl, -⟩ | h₂
      · exact ⟨rfl, rfl⟩
      · exact absurd ((Prod.mk.inj e₁).2 ▸ h₂) hnew
    · rcases hold h₂ with ⟨-, -, e₂⟩ | h₂
      · exact absurd ((Prod.mk.inj e₂).2 ▸ h₁) hnew
      · exact h.unique p₁ j₁ k₁ p₂ j₂ k₂ c' h₁ h₂
  · rcases hold h₁ with ⟨hp₁, hj₁, e₁⟩ | h₁
    · rcases hold h₂ with ⟨-, hj₂, -⟩ | h₂
      · rw [hj₁, hj₂]
      · rw [hp₁, (Prod.mk.inj e₁).1] at h₂
        exact absurd h₂ (hk j₂ c₂)
    · rcases hold h₂ with ⟨hp₂, -, e₂⟩ | h₂
      · rw [hp₂, (Prod.mk.inj e₂).1] at h₁
        exact absurd h₁ (hk j₁ c₁)
      · exact h.names p' j₁ j₂ k' c₁ c₂ h₁ h₂

/-- **A leaf whose slot is emptied.** -/
theorem unlink (h : Tree s root alive) {p : ν} {j : ℕ} {k : κ} {c : ν}
    (he : s p j = some (k, c)) (hleaf : ∀ j', s c j' = none) :
    Tree (put s p j none) root fun n => alive n ∧ n ≠ c := by
  have hold : ∀ {p' j' e}, put s p j none p' j' = some e → s p' j' = some e := by
    intro p' j' e he'
    rw [put_apply] at he'
    split at he'
    · simp at he'
    · exact he'
  -- a way that does not end in the leaf does not use the slot
  have hreach : ∀ {n}, Relation.ReflTransGen (Edge s) root n → n ≠ c →
      Relation.ReflTransGen (Edge (put s p j none)) root n := by
    intro n hr
    induction hr with
    | refl => exact fun _ => .refl
    | tail _ hedge ih =>
        intro hn
        obtain ⟨j', k', he'⟩ := hedge
        refine (ih ?_).tail ⟨j', k', ?_⟩
        · rintro rfl
          rw [hleaf] at he'
          simp at he'
        · rw [put_of_ne _ _ ?_, he']
          by_contra hne
          obtain ⟨rfl, rfl⟩ := not_or.1 hne |>.imp not_not.1 not_not.1
          rw [he] at he'
          exact hn (Prod.mk.inj (Option.some.inj he')).2.symm
  have hsource : ∀ {p' j' e}, put s p j none p' j' = some e → p' ≠ c := by
    rintro p' j' e he' rfl
    have := hold he'
    rw [hleaf] at this
    simp at this
  refine ⟨fun n => ⟨?_, fun hr => ?_⟩, fun p' j' e he' => ?_, fun p' j' k' he' => ?_,
    fun p₁ j₁ k₁ p₂ j₂ k₂ c' h₁ h₂ => ?_, fun p' j₁ j₂ k' c₁ c₂ h₁ h₂ => ?_⟩
  · rintro ⟨hn, hne⟩
    exact hreach ((h.reach n).1 hn) hne
  · cases hr with
    | refl => exact ⟨h.root_alive, (h.child_ne_root he).symm⟩
    | tail _ hedge =>
        obtain ⟨j', k', he'⟩ := hedge
        refine ⟨h.child_alive (hold he'), ?_⟩
        rintro rfl
        obtain ⟨rfl, rfl⟩ := h.unique _ _ _ _ _ _ _ (hold he') he
        rw [put_self] at he'
        simp at he'
  · exact ⟨h.source p' j' e (hold he'), hsource he'⟩
  · exact h.target p' j' k' (hold he')
  · exact h.unique p₁ j₁ k₁ p₂ j₂ k₂ c' (hold h₁) (hold h₂)
  · exact h.names p' j₁ j₂ k' c₁ c₂ (hold h₁) (hold h₂)

end Tree

end Put

/-! ### Counting -/

/-- **How many of the first `m` slots of `p` are occupied.** -/
def degree (s : Slots ν κ) (p : ν) (m : ℕ) : ℕ := Nat.count (fun j => (s p j).isSome = true) m

section Degree

variable {s s' : Slots ν κ} {p p' : ν} {j m : ℕ}

theorem degree_congr (h : ∀ j < m, (s' p' j).isSome = (s p j).isSome) :
    degree s' p' m = degree s p m := by
  induction m with
  | zero => rfl
  | succ m ih =>
      rw [degree, degree, Nat.count_succ, Nat.count_succ]
      have hm := h m (Nat.lt_succ_self m)
      have hrest : degree s' p' m = degree s p m := ih fun j hj => h j (Nat.lt_succ_of_lt hj)
      rw [degree, degree] at hrest
      rw [hrest, hm]

theorem degree_eq_zero_iff : degree s p m = 0 ↔ ∀ j < m, s p j = none := by
  induction m with
  | zero => simp [degree]
  | succ m ih =>
      rw [degree] at ih
      rw [degree, Nat.count_succ, Nat.add_eq_zero_iff, ih]
      constructor
      · rintro ⟨hrest, hlast⟩ j hj
        rcases Nat.lt_or_eq_of_le (Nat.lt_succ_iff.1 hj) with hj | rfl
        · exact hrest j hj
        · simpa using hlast
      · intro h
        exact ⟨fun j hj => h j (by omega), by simp [h m (by omega)]⟩

theorem degree_le (s : Slots ν κ) (p : ν) (m : ℕ) : degree s p m ≤ m := Nat.count_le _

/-- Free slots do not count. -/
theorem degree_of_le {m' : ℕ} (hle : m ≤ m') (h : ∀ j, m ≤ j → s p j = none) :
    degree s p m' = degree s p m := by
  induction m', hle using Nat.le_induction with
  | base => rfl
  | succ m' hm ih =>
      have hnone := h m' hm
      rw [degree] at ih
      rw [degree, Nat.count_succ, ih, hnone]
      rfl

/-- As many as a list of the occupied slots has. -/
theorem length_filterMap {α : Type} (f : κ × ν → α) (s : Slots ν κ) (p : ν) (m : ℕ) :
    ((List.range m).filterMap fun j => (s p j).map f).length = degree s p m := by
  induction m with
  | zero => rfl
  | succ m ih =>
      rw [List.range_succ, List.filterMap_append, List.length_append, ih, degree, degree,
        Nat.count_succ]
      cases h : s p m with
      | none => simp [h]
      | some e => simp [h]

variable [DecidableEq ν]

theorem degree_put_of_ne (s : Slots ν κ) (j m : ℕ) (e : Option (κ × ν)) (h : p' ≠ p) :
    degree (put s p j e) p' m = degree s p' m :=
  degree_congr fun j' _ => by rw [put_of_ne _ _ (.inl h)]

/-- An entry more. -/
theorem degree_put_some (e : κ × ν) (hj : j < m) (hfree : s p j = none) :
    degree (put s p j (some e)) p m = degree s p m + 1 := by
  induction m with
  | zero => omega
  | succ m ih =>
      rw [degree, degree, Nat.count_succ, Nat.count_succ]
      rcases Nat.lt_or_ge j m with hlt | hge
      · have hm := ih hlt
        rw [degree, degree] at hm
        rw [hm, put_of_ne _ _ (.inr (by omega))]
        omega
      · obtain rfl : m = j := by omega
        have hm : degree (put s p m (some e)) p m = degree s p m :=
          degree_congr fun j' hj' => by rw [put_of_ne _ _ (.inr (by omega))]
        rw [degree, degree] at hm
        rw [hm, put_self, hfree]
        simp

/-- An entry less. -/
theorem degree_put_none {e : κ × ν} (hj : j < m) (he : s p j = some e) :
    degree (put s p j none) p m + 1 = degree s p m := by
  have hback : put (put s p j none) p j (some e) = s := by
    funext p' j'
    rw [put_apply, put_apply]
    split
    · rename_i h
      rw [h.1, h.2, he]
    · rfl
  have := degree_put_some e hj (put_self s p j none)
  rw [hback] at this
  exact this.symm

end Degree

end Forest
