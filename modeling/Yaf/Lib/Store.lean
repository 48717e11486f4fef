/-
**Cells of a medium, with copies in memory.**

A program works on copies of the cells of a medium.  It acquires the copy of a cell, which is made
from the cell when there is none, reads and writes it, marks it dirty and releases it.  Before each
of these accesses the machine has a turn: it may save a dirty copy to its cell, and drop a copy
that is clean and that nobody refers to.  What it does in its turns is a plan that is part of the
state, so what holds for every plan holds whatever the machine does.

A program that marks what it has written before it releases it never notices the machine.  One that
releases a copy first and marks it afterwards may find that the copy was dropped in between.

Main definitions:

* `Store.Copy`, `Store.Act`, `Store` — copies, what the machine does, and the state;
* `Store.acquire`, `Store.read`, `Store.write`, `Store.mark`, `Store.release` — the accesses;
* `Store.shown` — what a reader of a cell is shown;
* `Store.Inv` — the copies are counted, and what is not on the medium is dirty or being written;
* `Store.Bounded` — only some of the cells have copies.

Main results:

* `Store.Inv.turn` — **a turn of the machine changes nothing that is shown**;
* `Store.wp_acquire`, … — what the accesses do;
* `Store.Inv.setMedium` — a cell may be changed on the medium while it has no copy;
* `Store.wp_release_mark` — a copy that is released and then marked, unless it was dropped;
* `Store.maintains_acquire`, … — an access makes no copy but that of its cell;
* `Store.Inv.settled` — **what is shown is on the medium after the dirty copies were saved**.
-/

import Yaf.Lib.Prog
import Mathlib.Data.List.Count
import Mathlib.Data.List.Perm.Basic
import Mathlib.Logic.Function.Basic

set_option relaxedAutoImplicit false
set_option autoImplicit false

namespace Store

/-- A copy of a cell. -/
structure Copy (β : Type) where
  data : β
  /-- it is to be saved -/
  dirty : Bool
  /-- how many references there are to it -/
  refs : ℕ

/-- What the machine may do in a turn. -/
inductive Act (α : Type) where
  | save (a : α)
  | drop (a : α)
  deriving DecidableEq

end Store

/-- **A medium and the copies of its cells.**  `plan` is what the machine does in its turns. -/
structure Store (α β : Type) where
  medium : α → β
  copies : α → Option (Store.Copy β)
  plan : List (List (Store.Act α))

namespace Store

open Prog

variable {α β γ : Type} [DecidableEq α]

/-- What a reader of a cell is shown. -/
def shown (s : Store α β) (a : α) : β :=
  match s.copies a with
  | some c => c.data
  | none => s.medium a

def setCopy (s : Store α β) (a : α) (c : Option (Copy β)) : Store α β :=
  { s with copies := Function.update s.copies a c }

/-- One act of the machine.  A copy that is clean is not saved, one that is dirty or referred to is
not dropped. -/
def act (s : Store α β) : Act α → Store α β
  | .save a =>
      match s.copies a with
      | some c =>
          if c.dirty then
            { s.setCopy a (some { c with dirty := false }) with
              medium := Function.update s.medium a c.data }
          else s
      | none => s
  | .drop a =>
      match s.copies a with
      | some c => if c.dirty = false ∧ c.refs = 0 then s.setCopy a none else s
      | none => s

/-- A turn of the machine. -/
def turn (s : Store α β) : Store α β :=
  { (s.plan.headD []).foldl act s with plan := s.plan.tail }

/-- The plan drops the copy of a cell. -/
def Drops (s : Store α β) (a : α) : Prop := ∃ acts ∈ s.plan, .drop a ∈ acts

/-! ### The accesses -/

/-- A program that works on copies.  Its only fault is the use of a copy that was dropped. -/
abbrev Code (α β γ : Type) : Type := Prog Unit (Store α β) γ

def tick : Code α β Unit := modify turn

/-- The copy of a cell that somebody points to. -/
def copy (a : α) : Code α β (Copy β) := do
  tick
  match (← get).copies a with
  | some c => pure c
  | none => throw ()

/-- A reference to the copy of a cell. -/
def acquire (a : α) : Code α β Unit := do
  tick
  modify fun s => s.setCopy a <|
    match s.copies a with
    | some c => some { c with refs := c.refs + 1 }
    | none => some ⟨s.medium a, false, 1⟩

def read (a : α) : Code α β β := do pure (← copy a).data

def write (a : α) (f : β → β) : Code α β Unit := do
  let c ← copy a
  modify fun s => s.setCopy a (some { c with data := f c.data })

def mark (a : α) : Code α β Unit := do
  let c ← copy a
  modify fun s => s.setCopy a (some { c with dirty := true })

def release (a : α) : Code α β Unit := do
  let c ← copy a
  modify fun s => s.setCopy a (some { c with refs := c.refs - 1 })

/-- The medium after the dirty copies were saved. -/
def settled (s : Store α β) (a : α) : β :=
  match s.copies a with
  | some c => if c.dirty then c.data else s.medium a
  | none => s.medium a

/-! ### The invariant -/

/-- **The copies are counted, and nothing unsaved can be dropped**: there are references to the
cells `held`, and a copy that is not dirty has what its cell has, unless it is in `unsaved`. -/
structure Inv (held unsaved : List α) (s : Store α β) : Prop where
  refs : ∀ a c, s.copies a = some c → c.refs = held.count a
  held : ∀ a ∈ held, ∃ c, s.copies a = some c
  clean : ∀ a c, s.copies a = some c → c.dirty = false → a ∉ unsaved → c.data = s.medium a

section Fields

variable (s : Store α β) (a : α) (c : Option (Copy β))

@[simp] theorem medium_setCopy : (s.setCopy a c).medium = s.medium := rfl

@[simp] theorem plan_setCopy : (s.setCopy a c).plan = s.plan := rfl

theorem copies_setCopy (x : α) : (s.setCopy a c).copies x = if x = a then c else s.copies x :=
  Function.update_apply _ _ _ _

omit [DecidableEq α] in
theorem shown_of_copies {c : Copy β} (h : s.copies a = some c) : s.shown a = c.data := by
  rw [shown, h]

omit [DecidableEq α] in
theorem shown_of_none (h : s.copies a = none) : s.shown a = s.medium a := by
  rw [shown, h]

omit [DecidableEq α] in
/-- What is shown of a cell depends on the cell and on its copy. -/
theorem shown_congr {s' : Store α β} {x : α} (hc : s'.copies x = s.copies x)
    (hm : s'.medium x = s.medium x) : s'.shown x = s.shown x := by
  rw [shown, shown, hc, hm]

/-- A copy is replaced. -/
theorem shown_setCopy (c : Copy β) :
    (s.setCopy a (some c)).shown = Function.update s.shown a c.data := by
  funext x
  by_cases hx : x = a
  · subst hx
    rw [Function.update_self, shown_of_copies _ x (Function.update_self _ _ _)]
  · rw [Function.update_of_ne hx]
    exact s.shown_congr (Function.update_of_ne hx _ _) rfl

/-- A copy is replaced by one with the same data. -/
theorem shown_setCopy_of_eq {c : Copy β} (h : c.data = s.shown a) :
    (s.setCopy a (some c)).shown = s.shown := by
  rw [shown_setCopy, h, Function.update_eq_self]

variable {s a} in
/-- A copy is replaced by one with the data of the old one. -/
theorem shown_setCopy_of_copies {c c' : Copy β} (h : s.copies a = some c)
    (hdata : c'.data = c.data) : (s.setCopy a (some c')).shown = s.shown :=
  s.shown_setCopy_of_eq a (hdata.trans (s.shown_of_copies a h).symm)

end Fields

/-! ### The machine -/

section Machine

variable {s : Store α β} {held unsaved : List α}

/-- Saving a copy. -/
theorem Inv.save (h : Inv held unsaved s) {a : α} {c : Copy β} (hc : s.copies a = some c) :
    Inv held unsaved { s.setCopy a (some { c with dirty := false }) with
      medium := Function.update s.medium a c.data } ∧
    shown { s.setCopy a (some { c with dirty := false }) with
      medium := Function.update s.medium a c.data } = s.shown := by
  set s' : Store α β := { s.setCopy a (some { c with dirty := false }) with
    medium := Function.update s.medium a c.data } with hs'
  have hcopies : ∀ x, s'.copies x = if x = a then some { c with dirty := false } else s.copies x :=
    s.copies_setCopy a _
  have hmedium : ∀ x, s'.medium x = if x = a then c.data else s.medium x :=
    Function.update_apply _ _ _
  refine ⟨⟨?_, ?_, ?_⟩, ?_⟩
  · intro x b hb
    rw [hcopies] at hb
    split at hb
    · subst x
      obtain rfl := Option.some.inj hb
      exact h.refs a c hc
    · exact h.refs x b hb
  · intro x hx
    rw [hcopies]
    split
    · exact ⟨_, rfl⟩
    · exact h.held x hx
  · intro x b hb hd hu
    rw [hcopies] at hb
    rw [hmedium]
    split at hb
    · obtain rfl := Option.some.inj hb
      rw [if_pos ‹_›]
    · rw [if_neg ‹_›]
      exact h.clean x b hb hd hu
  · funext x
    by_cases hx : x = a
    · subst hx
      rw [shown_of_copies s x hc, shown_of_copies s' x ((hcopies x).trans (if_pos rfl))]
    · exact s.shown_congr ((hcopies x).trans (if_neg hx)) ((hmedium x).trans (if_neg hx))

/-- Dropping a copy that is clean and that nobody refers to. -/
theorem Inv.drop (h : Inv held unsaved s) {a : α} {c : Copy β} (hc : s.copies a = some c)
    (hsub : a ∈ unsaved → a ∈ held) (hclean : c.dirty = false) (hfree : c.refs = 0) :
    Inv held unsaved (s.setCopy a none) ∧ (s.setCopy a none).shown = s.shown := by
  have hnot : a ∉ held := by
    intro ha
    have hpos : 0 < held.count a := List.count_pos_iff.2 ha
    rw [← h.refs a c hc, hfree] at hpos
    exact absurd hpos (Nat.lt_irrefl 0)
  have hsame : c.data = s.medium a := h.clean a c hc hclean fun ha => hnot (hsub ha)
  have hkeep : ∀ x b, (s.setCopy a none).copies x = some b → s.copies x = some b := by
    intro x b hb
    rw [copies_setCopy] at hb
    split at hb
    · exact absurd hb.symm (Option.some_ne_none _)
    · exact hb
  refine ⟨⟨?_, ?_, ?_⟩, ?_⟩
  · intro x b hb
    exact h.refs x b (hkeep x b hb)
  · intro x hx
    have hxa : x ≠ a := fun hxa => hnot (hxa ▸ hx)
    rw [copies_setCopy, if_neg hxa]
    exact h.held x hx
  · intro x b hb
    exact h.clean x b (hkeep x b hb)
  · funext x
    by_cases hx : x = a
    · subst hx
      rw [shown_of_copies s x hc,
        shown_of_none _ x ((s.copies_setCopy x none x).trans (if_pos rfl))]
      exact hsame.symm
    · exact s.shown_congr ((s.copies_setCopy a none x).trans (if_neg hx)) rfl

/-- One act keeps the invariant and what is shown, unless it drops what is being written. -/
theorem Inv.act (h : Inv held unsaved s) (e : Act α)
    (hsub : ∀ a, e = .drop a → a ∈ unsaved → a ∈ held) :
    Inv held unsaved (s.act e) ∧ (s.act e).shown = s.shown := by
  cases e with
  | save a =>
      rw [Store.act]
      cases hc : s.copies a with
      | none => exact ⟨h, rfl⟩
      | some c =>
          dsimp only
          split
          · exact h.save hc
          · exact ⟨h, rfl⟩
  | drop a =>
      rw [Store.act]
      cases hc : s.copies a with
      | none => exact ⟨h, rfl⟩
      | some c =>
          dsimp only
          split
          · rename_i hfree
            exact h.drop hc (hsub a rfl) hfree.1 hfree.2
          · exact ⟨h, rfl⟩

/-- The acts of a turn, when what is being written is referred to. -/
theorem Inv.foldl_act (h : Inv held unsaved s) (hsub : ∀ a ∈ unsaved, a ∈ held)
    (acts : List (Act α)) :
    Inv held unsaved (acts.foldl Store.act s) ∧ (acts.foldl Store.act s).shown = s.shown := by
  induction acts generalizing s with
  | nil => exact ⟨h, rfl⟩
  | cons e acts ih =>
      obtain ⟨h₁, hshown₁⟩ := h.act e fun a _ => hsub a
      obtain ⟨h₂, hshown₂⟩ := ih h₁
      exact ⟨h₂, hshown₂.trans hshown₁⟩

/-- **A turn of the machine** keeps the invariant and what is shown. -/
theorem Inv.turn (h : Inv held unsaved s) (hsub : ∀ a ∈ unsaved, a ∈ held) :
    Inv held unsaved s.turn ∧ s.turn.shown = s.shown := by
  obtain ⟨h₁, hshown⟩ := h.foldl_act hsub (s.plan.headD [])
  exact ⟨⟨h₁.refs, h₁.held, h₁.clean⟩, hshown⟩

/-- The plan gets shorter. -/
theorem Drops.of_turn {a : α} (h : s.turn.Drops a) : s.Drops a := by
  obtain ⟨acts, hmem, ha⟩ := h
  exact ⟨acts, List.mem_of_mem_tail hmem, ha⟩

/-! A copy that was written and released, and that is still to be marked. -/

/-- Nobody makes a copy in a turn. -/
theorem copies_act_of_none {a : α} (hc : s.copies a = none) (e : Act α) :
    (s.act e).copies a = none := by
  have hset : ∀ x b c, s.copies x = some b → (s.setCopy x c).copies a = none := by
    intro x b c hb
    rw [copies_setCopy, if_neg]
    · exact hc
    · rintro rfl
      exact Option.some_ne_none _ (hb.symm.trans hc)
  cases e with
  | save x =>
      rw [Store.act]
      split
      · split
        · exact hset x _ _ ‹_›
        · exact hc
      · exact hc
  | drop x =>
      rw [Store.act]
      split
      · split
        · exact hset x _ _ ‹_›
        · exact hc
      · exact hc

theorem copies_foldl_act_of_none {a : α} (acts : List (Act α)) (hc : s.copies a = none) :
    (acts.foldl Store.act s).copies a = none := by
  induction acts generalizing s with
  | nil => exact hc
  | cons e acts ih => exact ih (copies_act_of_none hc e)

/-- Only dropping a copy takes it away. -/
theorem exists_copies_act {a : α} (hc : ∃ c, s.copies a = some c) {e : Act α} (he : e ≠ .drop a) :
    ∃ c, (s.act e).copies a = some c := by
  cases e with
  | save x =>
      rw [Store.act]
      split
      · split
        · change ∃ c, (s.setCopy x _).copies a = some c
          rw [copies_setCopy]
          split
          · exact ⟨_, rfl⟩
          · exact hc
        · exact hc
      · exact hc
  | drop x =>
      have hx : a ≠ x := fun hx => he (by rw [hx])
      rw [Store.act]
      split
      · split
        · rw [copies_setCopy, if_neg hx]
          exact hc
        · exact hc
      · exact hc

/-- A copy that is still there after it was to be dropped is dirty or referred to. -/
theorem act_drop_of_copies {a : α} {c : Copy β} (hc : (s.act (.drop a)).copies a = some c) :
    s.act (.drop a) = s := by
  cases hb : s.copies a with
  | none => rw [Store.act, hb]
  | some b =>
      rw [Store.act, hb] at hc ⊢
      dsimp only at hc ⊢
      split
      · rename_i hfree
        rw [if_pos hfree, copies_setCopy, if_pos rfl] at hc
        exact absurd hc.symm (Option.some_ne_none _)
      · rfl

/-- The acts of a turn: either all is as if the copy were referred to, or it was dropped. -/
theorem Inv.foldl_act_loose {a : α} (h : Inv held (a :: unsaved) s)
    (hsub : ∀ x ∈ unsaved, x ∈ held) (hc : ∃ c, s.copies a = some c) (acts : List (Act α)) :
    (Inv held (a :: unsaved) (acts.foldl Store.act s) ∧
        (acts.foldl Store.act s).shown = s.shown ∧
        ∃ c, (acts.foldl Store.act s).copies a = some c) ∨
      (acts.foldl Store.act s).copies a = none ∧ Act.drop a ∈ acts := by
  induction acts generalizing s with
  | nil => exact .inl ⟨h, rfl, hc⟩
  | cons e acts ih =>
      cases hx : (s.act e).copies a with
      | none =>
          have he : e = .drop a := by
            by_contra he
            obtain ⟨c, hc'⟩ := exists_copies_act hc he
            exact Option.some_ne_none c (hc'.symm.trans hx)
          exact .inr ⟨copies_foldl_act_of_none acts hx, he ▸ List.mem_cons_self⟩
      | some c =>
          have hact : Inv held (a :: unsaved) (s.act e) ∧ (s.act e).shown = s.shown := by
            by_cases he : e = .drop a
            · have hsame : s.act e = s := by
                subst he
                exact act_drop_of_copies hx
              rw [hsame]
              exact ⟨h, rfl⟩
            · refine h.act e fun x hdrop hmem => ?_
              rcases List.mem_cons.1 hmem with rfl | hmem
              · exact absurd hdrop he
              · exact hsub x hmem
          rcases ih hact.1 ⟨c, hx⟩ with ⟨h₂, hshown₂, hc₂⟩ | ⟨hgone, hmem⟩
          · exact .inl ⟨h₂, hshown₂.trans hact.2, hc₂⟩
          · exact .inr ⟨hgone, List.mem_cons_of_mem _ hmem⟩

theorem Inv.turn_loose {a : α} (h : Inv held (a :: unsaved) s) (hsub : ∀ x ∈ unsaved, x ∈ held)
    (hc : ∃ c, s.copies a = some c) :
    (Inv held (a :: unsaved) s.turn ∧ s.turn.shown = s.shown ∧
        ∃ c, s.turn.copies a = some c) ∨ s.turn.copies a = none ∧ s.Drops a := by
  rcases h.foldl_act_loose hsub hc (s.plan.headD []) with ⟨h₁, hshown, hc₁⟩ | ⟨hgone, hmem⟩
  · exact .inl ⟨⟨h₁.refs, h₁.held, h₁.clean⟩, hshown, hc₁⟩
  · refine .inr ⟨hgone, ?_⟩
    cases hp : s.plan with
    | nil =>
        rw [hp] at hmem
        exact absurd hmem List.not_mem_nil
    | cons acts plan =>
        rw [hp] at hmem
        exact ⟨acts, by rw [hp]; exact List.mem_cons_self, hmem⟩

end Machine

/-! ### What the accesses do -/

section Rules

variable {s : Store α β} {held unsaved : List α} {a : α}

/-- A copy with another count. -/
theorem Inv.setCopy (h : Inv held unsaved s) {held' unsaved' : List α} {c : Copy β}
    (hrefs : c.refs = held'.count a) (hcount : ∀ x, x ≠ a → held'.count x = held.count x)
    (hsaved : ∀ x ∈ unsaved, x = a ∨ x ∈ unsaved')
    (hclean : c.dirty = false → a ∉ unsaved' → c.data = s.medium a) :
    Inv held' unsaved' (s.setCopy a (some c)) := by
  refine ⟨?_, ?_, ?_⟩
  · intro x b hb
    rw [copies_setCopy] at hb
    split at hb
    · subst x
      obtain rfl := Option.some.inj hb
      exact hrefs
    · rw [hcount x ‹_›]
      exact h.refs x b hb
  · intro x hx
    rw [copies_setCopy]
    split
    · exact ⟨c, rfl⟩
    · rename_i hxa
      refine h.held x (List.count_pos_iff.1 ?_)
      rw [← hcount x hxa]
      exact List.count_pos_iff.2 hx
  · intro x b hb hd hu
    rw [copies_setCopy] at hb
    split at hb
    · subst x
      obtain rfl := Option.some.inj hb
      exact hclean hd hu
    · rename_i hxa
      refine h.clean x b hb hd fun hmem => ?_
      exact (hsaved x hmem).elim hxa hu

/-- A cell without a copy is changed on the medium. -/
theorem Inv.setMedium (h : Inv held unsaved s) (hc : s.copies a = none) (b : β) :
    Inv held unsaved { s with medium := Function.update s.medium a b } ∧
      shown { s with medium := Function.update s.medium a b } = Function.update s.shown a b := by
  have hother : ∀ x c, s.copies x = some c → x ≠ a := by
    rintro x c hx rfl
    rw [hc] at hx
    exact absurd hx.symm (Option.some_ne_none c)
  refine ⟨⟨h.refs, h.held, fun x c hx hd hu => ?_⟩, ?_⟩
  · rw [h.clean x c hx hd hu]
    exact (Function.update_of_ne (hother x c hx) _ _).symm
  · funext x
    by_cases hx : x = a
    · subst hx
      have hnone : Store.copies { s with medium := Function.update s.medium x b } x = none := hc
      rw [shown_of_none _ _ hnone, Function.update_self]
      exact Function.update_self x b s.medium
    · rw [Function.update_of_ne hx]
      exact s.shown_congr rfl (Function.update_of_ne hx _ _)

/-- A turn of the machine. -/
theorem wp_tick (h : Inv held unsaved s) (hsub : ∀ a ∈ unsaved, a ∈ held) {E : Unit → Prop} :
    wp tick (fun _ s' => Inv held unsaved s' ∧ s'.shown = s.shown ∧
      ∀ x, s'.Drops x → s.Drops x) E s := by
  obtain ⟨h', hshown⟩ := h.turn hsub
  exact ⟨h', hshown, fun x hx => Drops.of_turn hx⟩

/-- The copy that somebody refers to is there. -/
theorem wp_copy (h : Inv held unsaved s) (hsub : ∀ a ∈ unsaved, a ∈ held) (ha : a ∈ held)
    {E : Unit → Prop} :
    wp (copy a) (fun c s' => s' = s.turn ∧ Inv held unsaved s' ∧ s'.shown = s.shown ∧
      s'.copies a = some c ∧ c.data = s.shown a) E s := by
  obtain ⟨h', hshown⟩ := h.turn hsub
  obtain ⟨c, hc⟩ := h'.held a ha
  rw [copy, wp_bind, tick, wp_modify, wp_bind, wp_get, hc]
  refine ⟨rfl, h', hshown, hc, ?_⟩
  rw [← hshown, shown_of_copies _ _ hc]

/-- **`acquire`** adds a reference. -/
theorem wp_acquire (h : Inv held unsaved s) (hsub : ∀ a ∈ unsaved, a ∈ held) {E : Unit → Prop} :
    wp (acquire a) (fun _ s' => Inv (a :: held) unsaved s' ∧ s'.shown = s.shown ∧
      ∀ x, s'.Drops x → s.Drops x) E s := by
  obtain ⟨h', hshown⟩ := h.turn hsub
  have hcount : ∀ x, x ≠ a → (a :: held).count x = held.count x := by
    intro x hx
    exact List.count_cons_of_ne (Ne.symm hx)
  have hzero : s.turn.copies a = none → held.count a = 0 := by
    intro hn
    refine List.count_eq_zero.2 fun ha => ?_
    obtain ⟨c, hc⟩ := h'.held a ha
    exact Option.some_ne_none c (hc.symm.trans hn)
  rw [acquire, wp_bind, tick, wp_modify, wp_modify]
  cases hc : s.turn.copies a with
  | some c =>
      refine ⟨h'.setCopy ?_ hcount (fun x hx => .inr hx) ?_, ?_, fun x hx => Drops.of_turn hx⟩
      · rw [List.count_cons_self, ← h'.refs a c hc]
      · exact h'.clean a c hc
      · exact (shown_setCopy_of_copies hc (by rfl)).trans hshown
  | none =>
      refine ⟨h'.setCopy ?_ hcount (fun x hx => .inr hx) (fun _ _ => rfl), ?_,
        fun x hx => Drops.of_turn hx⟩
      · rw [List.count_cons_self, hzero hc]
      · rw [shown_setCopy_of_eq _ _ (shown_of_none _ _ hc).symm, hshown]

/-- **`read`** gives what is shown. -/
theorem wp_read (h : Inv held unsaved s) (hsub : ∀ a ∈ unsaved, a ∈ held) (ha : a ∈ held)
    {E : Unit → Prop} :
    wp (read a) (fun v s' => v = s.shown a ∧ Inv held unsaved s' ∧ s'.shown = s.shown ∧
      ∀ x, s'.Drops x → s.Drops x) E s := by
  rw [read, wp_bind]
  refine wp_mono (wp_copy h hsub ha) ?_ fun _ he => he
  rintro c s' ⟨rfl, h', hshown, -, hdata⟩
  exact ⟨hdata, h', hshown, fun x hx => Drops.of_turn hx⟩

/-- **`write`** changes what is shown of the cell, which is unsaved from then on. -/
theorem wp_write (h : Inv held unsaved s) (hsub : ∀ a ∈ unsaved, a ∈ held) (ha : a ∈ held)
    (f : β → β) {E : Unit → Prop} :
    wp (write a f) (fun _ s' => Inv held (a :: unsaved) s' ∧
      s'.shown = Function.update s.shown a (f (s.shown a)) ∧ ∀ x, s'.Drops x → s.Drops x) E s := by
  rw [write, wp_bind]
  refine wp_mono (wp_copy h hsub ha) ?_ fun _ he => he
  rintro c s' ⟨rfl, h', hshown, hc, hdata⟩
  rw [wp_modify]
  refine ⟨h'.setCopy (h'.refs a c hc) (fun _ _ => rfl) ?_ ?_, ?_, fun x hx => Drops.of_turn hx⟩
  · exact fun x hx => .inr (List.mem_cons_of_mem _ hx)
  · exact fun _ hn => absurd List.mem_cons_self hn
  · rw [shown_setCopy, hshown, hdata]

/-- A copy that is there is marked. -/
theorem Inv.mark (h : Inv held (a :: unsaved) s) {c : Copy β} (hc : s.copies a = some c) :
    Inv held unsaved (s.setCopy a (some { c with dirty := true })) := by
  refine h.setCopy (h.refs a c hc) (fun _ _ => rfl) ?_ fun hd => ?_
  · intro x hx
    exact List.mem_cons.1 hx
  · exact absurd hd.symm Bool.false_ne_true

/-- **`mark`**: what was written will be saved. -/
theorem wp_mark (h : Inv held (a :: unsaved) s) (hsub : ∀ a ∈ unsaved, a ∈ held) (ha : a ∈ held)
    {E : Unit → Prop} :
    wp (mark a) (fun _ s' => Inv held unsaved s' ∧ s'.shown = s.shown ∧
      ∀ x, s'.Drops x → s.Drops x) E s := by
  rw [mark, wp_bind]
  refine wp_mono (wp_copy h ?_ ha) ?_ fun _ he => he
  · intro x hx
    rcases List.mem_cons.1 hx with rfl | hx
    · exact ha
    · exact hsub x hx
  rintro c s' ⟨rfl, h', hshown, hc, -⟩
  rw [wp_modify]
  refine ⟨h'.mark hc, ?_, fun x hx => Drops.of_turn hx⟩
  exact (shown_setCopy_of_copies hc (by rfl)).trans hshown

/-- A reference to a copy that is there is given up. -/
theorem Inv.release (h : Inv (a :: held) unsaved s) {c : Copy β} (hc : s.copies a = some c) :
    Inv held unsaved (s.setCopy a (some { c with refs := c.refs - 1 })) := by
  refine h.setCopy ?_ ?_ (fun x hx => .inr hx) (h.clean a c hc)
  · rw [h.refs a c hc, List.count_cons_self, Nat.add_sub_cancel]
  · intro x hx
    exact (List.count_cons_of_ne (Ne.symm hx)).symm

/-- **`release`** takes a reference away. -/
theorem wp_release (h : Inv (a :: held) unsaved s) (hsub : ∀ a ∈ unsaved, a ∈ held)
    {E : Unit → Prop} :
    wp (release a) (fun _ s' => Inv held unsaved s' ∧ s'.shown = s.shown ∧
      ∀ x, s'.Drops x → s.Drops x) E s := by
  rw [release, wp_bind]
  refine wp_mono (wp_copy h (fun x hx => List.mem_cons_of_mem _ (hsub x hx)) List.mem_cons_self) ?_
    fun _ he => he
  rintro c s' ⟨rfl, h', hshown, hc, -⟩
  rw [wp_modify]
  refine ⟨h'.release hc, ?_, fun x hx => Drops.of_turn hx⟩
  exact (shown_setCopy_of_copies hc (by rfl)).trans hshown

/-- **`release` before `mark`**: what was written will be saved, unless the copy was dropped in
between. -/
theorem wp_release_mark (h : Inv (a :: held) (a :: unsaved) s) (hsub : ∀ a ∈ unsaved, a ∈ held)
    {E : Unit → Prop} (hE : s.Drops a → E ()) :
    wp (release a >>= fun _ => mark a) (fun _ s' => Inv held unsaved s' ∧ s'.shown = s.shown ∧
      ∀ x, s'.Drops x → s.Drops x) E s := by
  have hsub' : ∀ x ∈ a :: unsaved, x ∈ a :: held := by
    intro x hx
    rcases List.mem_cons.1 hx with rfl | hx
    · exact List.mem_cons_self
    · exact List.mem_cons_of_mem _ (hsub x hx)
  rw [wp_bind, release, wp_bind]
  refine wp_mono (wp_copy h hsub' List.mem_cons_self) ?_ fun _ he => he
  rintro c s₁ ⟨rfl, h₁, hshown₁, hc, -⟩
  rw [wp_modify]
  set s₂ : Store α β := s.turn.setCopy a (some { c with refs := c.refs - 1 })
  have h₂ : Inv held (a :: unsaved) s₂ := h₁.release hc
  have hshown₂ : s₂.shown = s.shown := (shown_setCopy_of_copies hc (by rfl)).trans hshown₁
  have hdrops : ∀ x, s₂.turn.Drops x → s.Drops x := by
    intro x hx
    exact Drops.of_turn (s := s) (Drops.of_turn (s := s₂) hx)
  rw [mark, wp_bind, copy, wp_bind, tick, wp_modify, wp_bind, wp_get]
  have hcopy₂ : ∃ b, s₂.copies a = some b := ⟨_, (copies_setCopy _ _ _ a).trans (if_pos rfl)⟩
  rcases h₂.turn_loose hsub hcopy₂ with ⟨h₃, hshown₃, b, hb⟩ | ⟨hgone, hdrop⟩
  · rw [hb]
    refine ⟨h₃.mark hb, ?_, hdrops⟩
    exact (shown_setCopy_of_copies hb (by rfl)).trans (hshown₃.trans hshown₂)
  · rw [hgone]
    exact hE (Drops.of_turn (s := s) hdrop)

/-- **What is shown is on the medium after the dirty copies were saved.** -/
theorem Inv.settled (h : Inv held [] s) (a : α) : s.settled a = s.shown a := by
  rw [Store.settled]
  cases hc : s.copies a with
  | none => exact (shown_of_none _ _ hc).symm
  | some c =>
      rw [shown_of_copies _ _ hc]
      dsimp only
      split
      · rfl
      · exact (h.clean a c hc (Bool.eq_false_iff.2 ‹_›) List.not_mem_nil).symm

end Rules

/-! ### Where copies are made -/

/-- Only the cells `B` have copies. -/
def Bounded (B : α → Prop) (s : Store α β) : Prop := ∀ a, s.copies a ≠ none → B a

section Bounded

variable {B : α → Prop} {a : α}

theorem Bounded.setCopy {s : Store α β} (h : s.Bounded B) (ha : B a) (c : Option (Copy β)) :
    (s.setCopy a c).Bounded B := by
  intro x hx
  rw [copies_setCopy] at hx
  split at hx
  · subst x
    exact ha
  · exact h x hx

/-- The machine makes no copies. -/
theorem maintains_tick : Maintains (Bounded B) (tick : Code α β Unit) := by
  refine .modify fun s h x hx => ?_
  exact h x fun hc => hx (copies_foldl_act_of_none _ hc)

theorem maintains_copy (a : α) : Maintains (Bounded B) (copy a : Code α β (Copy β)) := by
  refine .bind maintains_tick fun _ => .bind .get fun s => ?_
  cases s.copies a with
  | some c => exact .pure c
  | none => exact .throw trivial

theorem maintains_setCopy (ha : B a) (f : Store α β → Option (Copy β)) :
    Maintains (Bounded B) (modify fun s => s.setCopy a (f s) : Code α β Unit) :=
  .modify fun _ h => h.setCopy ha _

theorem maintains_acquire (ha : B a) : Maintains (Bounded B) (acquire a : Code α β Unit) :=
  .bind maintains_tick fun _ => maintains_setCopy ha _

theorem maintains_read (a : α) : Maintains (Bounded B) (read a : Code α β β) :=
  .bind (maintains_copy a) fun _ => .pure _

theorem maintains_write (ha : B a) (f : β → β) :
    Maintains (Bounded B) (write a f : Code α β Unit) :=
  .bind (maintains_copy a) fun _ => maintains_setCopy ha _

theorem maintains_mark (ha : B a) : Maintains (Bounded B) (mark a : Code α β Unit) :=
  .bind (maintains_copy a) fun _ => maintains_setCopy ha _

theorem maintains_release (ha : B a) : Maintains (Bounded B) (release a : Code α β Unit) :=
  .bind (maintains_copy a) fun _ => maintains_setCopy ha _

end Bounded

end Store
