/-
**A buffer cache under memory pressure.**

Calls run concurrently.  Each works on the bits of one block at a time: it gets the buffer of the
block, changes a bit in it, marks the buffer dirty and gives it back.  Meanwhile dirty buffers are
written back, and a buffer that is clean and that no call holds may be dropped.  Dropping a buffer
discards its contents; the next call that asks for the block reads the device again.  A call may
keep the pointer to a buffer it gave back; marking a buffer dirty that was dropped saves nothing.

The order of the last two actions of a call decides whether its change can be lost.  The module
has a discipline on the code of calls, by the *mode* a call is in, and proves that under it every
change is kept, as long as no buffer is dropped between the two actions of a call that gave its
buffer back before it marked it dirty.

Main definitions:

* `Cache.Code` — the code of a call, as a tree of its actions;
* `Cache.State`, `Cache.Event`, `Cache.step` — the cache, the device and the calls;
* `Cache.Mode`, `Cache.Code.Ok` — the discipline;
* `Cache.Calm` — nothing unsaved is dropped.

Main results:

* `Cache.Inv.step` — what one event preserves;
* `Cache.changed_of_reaches` — what a returned result announces was changed by this call;
* `Cache.shown_of_reaches` — **every change is kept**: what a call changed is shown to every later
  reader of the block, until another call changes it.
-/

import Yaf.Lib.Mem
import Mathlib.Logic.Relation

set_option relaxedAutoImplicit false
set_option autoImplicit false

namespace Cache

/-! ### Calls -/

/-- The code of a call.  `sb_bread` answers whether the buffer could be had, the two bit
operations answer the old value of the bit. -/
inductive Code (ρ : Type) where
  | sb_bread (bid : ℕ) (k : Bool → Code ρ)
  | test_and_set_bit (nr : ℕ) (k : Bool → Code ρ)
  | test_and_clear_bit (nr : ℕ) (k : Bool → Code ρ)
  | mark_buffer_dirty (k : Code ρ)
  | brelse (k : Code ρ)
  | ret (r : ρ)
  /-- the call ends everything -/
  | panic

/-- A call: the code it has left, and its pointer to a buffer, unless that buffer was dropped. -/
structure Task (ρ : Type) where
  code : Code ρ
  bh : Option ℕ

/-- A cached buffer, with the calls that hold a reference to it. -/
structure Buffer where
  data : ℕ → UInt8
  dirty : Bool
  refs : List ℕ

/-- The state of the machine. -/
structure State (ρ : Type) where
  disk : ℕ → ℕ → UInt8
  cache : ℕ → Option Buffer
  tasks : ℕ → Task ρ
  /-- the calls that changed a bit of a block, the last one first -/
  changes : ℕ → ℕ → List ℕ
  /-- whether a call could not have a buffer -/
  missed : ℕ → Bool

/-- What happens next: a call takes its next action, where `ok` says whether an `sb_bread` gets
its buffer, or the kernel drops or writes back the buffer of a block. -/
inductive Event where
  | run (i : ℕ) (ok : Bool)
  | reclaim (bid : ℕ)
  | writeback (bid : ℕ)

namespace State

variable {ρ : Type} (s : State ρ)

/-- The call that was the last to change a bit of a block. -/
def last (bid nr : ℕ) : Option ℕ := (s.changes bid nr).head?

def setTask (i : ℕ) (t : Task ρ) : State ρ := { s with tasks := Function.update s.tasks i t }

def setBuffer (bid : ℕ) (b : Option Buffer) : State ρ :=
  { s with cache := Function.update s.cache bid b }

/-- Call `i` could not have a buffer. -/
def miss (i : ℕ) : State ρ := { s with missed := Function.update s.missed i true }

/-- What a reader of a block is shown for a bit. -/
def shows (bid nr : ℕ) : Bool :=
  match s.cache bid with
  | some b => Mem.testBit b.data nr
  | none => Mem.testBit (s.disk bid) nr

/-- The buffer of a block after call `i` got a reference to it. -/
def acquire (bid i : ℕ) : Buffer :=
  match s.cache bid with
  | some b => { b with refs := i :: b.refs }
  | none => ⟨s.disk bid, false, [i]⟩

/-- The buffer a call points to. -/
def buffer (i : ℕ) : Option (ℕ × Buffer) :=
  (s.tasks i).bh.bind fun bid => (s.cache bid).map fun b => (bid, b)

/-- Call `i` changes bit `nr` of a block; `b` is the buffer afterwards. -/
def change (i bid nr : ℕ) (b : Buffer) : State ρ :=
  { s.setBuffer bid (some b) with
    changes := fun x y => if x = bid ∧ y = nr then i :: s.changes x y else s.changes x y }

/-- Dropping the buffer of a block; the pointers to it dangle. -/
def drop (bid : ℕ) : State ρ :=
  { s.setBuffer bid none with
    tasks := fun i =>
      if (s.tasks i).bh = some bid then ⟨(s.tasks i).code, none⟩ else s.tasks i }

/-- Writing back the buffer of a block. -/
def save (bid : ℕ) (b : Buffer) : State ρ :=
  { s.setBuffer bid (some { b with dirty := false }) with
    disk := Function.update s.disk bid b.data }

/-- A call that asks for a block gets a buffer that shows it. -/
theorem testBit_acquire (bid i nr : ℕ) :
    Mem.testBit (s.acquire bid i).data nr = s.shows bid nr := by
  rw [acquire, shows]
  cases s.cache bid <;> rfl

end State

/-- **What an event does**, or `none` when it cannot happen. -/
def step {ρ : Type} (s : State ρ) : Event → Option (State ρ)
  | .run i ok =>
      match (s.tasks i).code with
      | .sb_bread bid k =>
          if ok then some ((s.setBuffer bid (some (s.acquire bid i))).setTask i ⟨k true, some bid⟩)
          else some ((s.miss i).setTask i ⟨k false, none⟩)
      | .test_and_set_bit nr k =>
          (s.buffer i).map fun p =>
            if Mem.testBit p.2.data nr then s.setTask i ⟨k true, some p.1⟩
            else (s.change i p.1 nr { p.2 with data := Mem.setBit p.2.data nr }).setTask i
              ⟨k false, some p.1⟩
      | .test_and_clear_bit nr k =>
          (s.buffer i).map fun p =>
            if Mem.testBit p.2.data nr then
              (s.change i p.1 nr { p.2 with data := Mem.clearBit p.2.data nr }).setTask i
                ⟨k true, some p.1⟩
            else s.setTask i ⟨k false, some p.1⟩
      | .mark_buffer_dirty k =>
          match s.buffer i with
          | some (bid, b) =>
              some ((s.setBuffer bid (some { b with dirty := true })).setTask i
                ⟨k, (s.tasks i).bh⟩)
          | none => some (s.setTask i ⟨k, (s.tasks i).bh⟩)
      | .brelse k =>
          (s.buffer i).map fun p =>
            (s.setBuffer p.1 (some { p.2 with refs := p.2.refs.erase i })).setTask i
              ⟨k, some p.1⟩
      | .ret _ | .panic => none
  | .reclaim bid =>
      match s.cache bid with
      | some b => if b.refs = [] ∧ b.dirty = false then some (s.drop bid) else none
      | none => none
  | .writeback bid =>
      match s.cache bid with
      | some b => if b.dirty then some (s.save bid b) else none
      | none => none

/-! ### The discipline -/

/-- How far a call has come. -/
inductive Mode where
  /-- it holds no buffer and has changed nothing -/
  | idle
  /-- it could not have a buffer -/
  | failed
  | held (bid : ℕ)
  /-- it holds a buffer in which it set bit `nr` to `v` -/
  | changed (bid nr : ℕ) (v : Bool)
  /-- it marked that buffer dirty as well -/
  | marked (bid nr : ℕ) (v : Bool)
  /-- it gave the buffer back, but did not mark it dirty yet -/
  | loose (bid nr : ℕ) (v : Bool)
  | done (bid nr : ℕ) (v : Bool)

namespace Mode

/-- The block a call holds the buffer of. -/
def buffer : Mode → Option ℕ
  | held bid | changed bid _ _ | marked bid _ _ => some bid
  | idle | failed | loose _ _ _ | done _ _ _ => none

/-- The block a call has changed and still has to mark dirty. -/
def unsaved : Mode → Option ℕ
  | changed bid _ _ | loose bid _ _ => some bid
  | idle | failed | held _ | marked _ _ _ | done _ _ _ => none

/-- What a call has changed. -/
def change : Mode → Option (ℕ × ℕ × Bool)
  | changed bid nr v | marked bid nr v | loose bid nr v | done bid nr v => some (bid, nr, v)
  | idle | failed | held _ => none

/-- The mode after `mark_buffer_dirty`. -/
def mark : Mode → Mode
  | changed bid nr v => marked bid nr v
  | loose bid nr v => done bid nr v
  | m => m

/-- The mode after `brelse`. -/
def release : Mode → Option Mode
  | held _ => some idle
  | changed bid nr v => some (loose bid nr v)
  | marked bid nr v => some (done bid nr v)
  | idle | failed | loose _ _ _ | done _ _ _ => none

@[simp] theorem buffer_mark (m : Mode) : m.mark.buffer = m.buffer := by cases m <;> rfl

@[simp] theorem change_mark (m : Mode) : m.mark.change = m.change := by cases m <;> rfl

@[simp] theorem unsaved_mark (m : Mode) : m.mark.unsaved = none := by cases m <;> rfl

theorem mark_eq_failed {m : Mode} (h : m.mark = failed) : m = failed := by
  cases m <;> first | rfl | cases h

theorem buffer_release {m m' : Mode} (h : m.release = some m') :
    m'.buffer = none ∧ m'.change = m.change ∧ m'.unsaved = m.unsaved ∧ m' ≠ failed := by
  cases m <;> simp_all [release] <;> subst h <;> exact ⟨rfl, rfl, rfl, Mode.noConfusion⟩

end Mode

variable {ρ : Type}

/-- **The discipline**: the code is fit for a call in the given mode.  `names r bid nr v` says that
the result `r` announces that bit `nr` of block `bid` was set to `v`.  A call that could have its
buffer and has changed nothing announces nothing. -/
def Code.Ok (names : ρ → ℕ → ℕ → Bool → Prop) : Code ρ → Mode → Prop
  | .sb_bread bid k, m =>
      m = .idle ∧ (k true).Ok names (.held bid) ∧ (k false).Ok names .failed
  | .test_and_set_bit nr k, m =>
      ∃ bid, m = .held bid ∧ (k true).Ok names (.held bid) ∧
        (k false).Ok names (.changed bid nr true)
  | .test_and_clear_bit nr k, m =>
      ∃ bid, m = .held bid ∧ (k true).Ok names (.changed bid nr false) ∧
        (k false).Ok names (.held bid)
  | .mark_buffer_dirty k, m => k.Ok names m.mark
  | .brelse k, m => ∃ m', m.release = some m' ∧ k.Ok names m'
  | .ret r, m => (m = .idle ∧ ∀ bid nr v, ¬names r bid nr v) ∨ m = .failed ∨
      ∃ bid nr v, m = .done bid nr v ∧ names r bid nr v
  | .panic, m => m.unsaved = none

section Ok

variable {names : ρ → ℕ → ℕ → Bool → Prop} {m : Mode}

theorem Code.ok_sb_bread {bid : ℕ} {k : Bool → Code ρ} : (Code.sb_bread bid k).Ok names m ↔
    m = .idle ∧ (k true).Ok names (.held bid) ∧ (k false).Ok names .failed := Iff.rfl

theorem Code.ok_ret {r : ρ} : (Code.ret r).Ok names m ↔
    (m = .idle ∧ ∀ bid nr v, ¬names r bid nr v) ∨ m = .failed ∨
      ∃ bid nr v, m = .done bid nr v ∧ names r bid nr v := Iff.rfl

end Ok

/-- A call that gave its buffer back and has something unsaved is about to mark it dirty. -/
theorem Code.Ok.loose {names : ρ → ℕ → ℕ → Bool → Prop} {c : Code ρ} {m : Mode} {bid : ℕ}
    (h : c.Ok names m) (hu : m.unsaved = some bid) (hb : m.buffer = none) :
    ∃ k, c = .mark_buffer_dirty k := by
  cases m with
  | loose bid nr v =>
      cases c with
      | sb_bread bid k => exact absurd h.1 Mode.noConfusion
      | test_and_set_bit nr k =>
          obtain ⟨_, h, -⟩ := h
          exact absurd h Mode.noConfusion
      | test_and_clear_bit nr k =>
          obtain ⟨_, h, -⟩ := h
          exact absurd h Mode.noConfusion
      | mark_buffer_dirty k => exact ⟨k, rfl⟩
      | brelse k =>
          obtain ⟨_, h, -⟩ := h
          exact absurd h.symm (Option.some_ne_none _)
      | ret r =>
          obtain ⟨h, -⟩ | h | ⟨_, _, _, h, -⟩ := h <;> exact absurd h Mode.noConfusion
      | panic => exact absurd h (Option.some_ne_none _)
  | changed bid nr v => exact absurd hb (Option.some_ne_none _)
  | idle | failed | held _ | marked _ _ _ | done _ _ _ =>
      exact absurd hu.symm (Option.some_ne_none _)

/-- **Nothing unsaved is dropped**: when a buffer is dropped, every bit that was changed last by a
call about to mark it dirty is already on the device. -/
def Calm (s : State ρ) : Event → Prop
  | .reclaim bid => ∀ b i nr k, s.cache bid = some b → (s.tasks i).bh = some bid →
      (s.tasks i).code = .mark_buffer_dirty k → s.last bid nr = some i →
        Mem.testBit b.data nr = Mem.testBit (s.disk bid) nr
  | .run _ _ | .writeback _ => True

/-- Runs of events that meet a condition. -/
abbrev Reaches (ok : State ρ → Event → Prop) : State ρ → State ρ → Prop :=
  Relation.ReflTransGen fun s s' => ∃ e, ok s e ∧ step s e = some s'

/-- **The invariant**: a buffer differs from its block on the device only when it is dirty, or in
bits changed by calls that will still mark it dirty; and every change is shown. -/
structure Inv (names : ℕ → ρ → ℕ → ℕ → Bool → Prop) (s : State ρ) (modes : ℕ → Mode) : Prop where
  code : ∀ i, (s.tasks i).code.Ok (names i) (modes i)
  held : ∀ i bid, (modes i).buffer = some bid →
    (s.tasks i).bh = some bid ∧ ∃ b, s.cache bid = some b ∧ i ∈ b.refs
  saved : ∀ bid b nr, s.cache bid = some b →
    Mem.testBit b.data nr ≠ Mem.testBit (s.disk bid) nr → b.dirty = true ∨
      ∃ i, (modes i).unsaved = some bid ∧ (s.tasks i).bh = some bid ∧ s.last bid nr = some i
  shown : ∀ bid nr i, s.last bid nr = some i →
    (modes i).change = some (bid, nr, s.shows bid nr)
  changed : ∀ i bid nr v, (modes i).change = some (bid, nr, v) → i ∈ s.changes bid nr
  missed : ∀ i, modes i = .failed → s.missed i = true

/-! ### One event -/

section Step

variable {names : ℕ → ρ → ℕ → ℕ → Bool → Prop} {s : State ρ} {modes : ℕ → Mode}

/-- A call goes on, and its buffer stays as it is. -/
theorem Inv.setTask (h : Inv names s modes) {i : ℕ} {t : Task ρ} {m : Mode}
    (hcode : t.code.Ok (names i) m)
    (hheld : ∀ bid, m.buffer = some bid →
      t.bh = some bid ∧ ∃ b, s.cache bid = some b ∧ i ∈ b.refs)
    (hsaved : ∀ bid b, (modes i).unsaved = some bid → (s.tasks i).bh = some bid →
      s.cache bid = some b → b.dirty = true ∨ m.unsaved = some bid ∧ t.bh = some bid)
    (hchange : m.change = (modes i).change) (hmissed : m = .failed → s.missed i = true) :
    Inv names (s.setTask i t) (Function.update modes i m) := by
  have hchanges : ∀ j, (Function.update modes i m j).change = (modes j).change := by
    intro j
    by_cases hji : j = i
    · subst hji
      rw [Function.update_self, hchange]
    · rw [Function.update_of_ne hji]
  refine ⟨fun j => ?_, fun j bid hj => ?_, fun bid b nr hb hne => ?_, fun bid nr j hj => ?_,
    fun j bid nr v hj => ?_, fun j hj => ?_⟩
  · by_cases hji : j = i
    · subst hji
      simpa [State.setTask] using hcode
    · simpa [State.setTask, Function.update_of_ne hji] using h.code j
  · by_cases hji : j = i
    · subst hji
      rw [Function.update_self] at hj
      simpa [State.setTask] using hheld bid hj
    · rw [Function.update_of_ne hji] at hj
      simpa [State.setTask, Function.update_of_ne hji] using h.held j bid hj
  · obtain hd | ⟨j, hu, hbh, hlast⟩ := h.saved bid b nr hb hne
    · exact .inl hd
    · by_cases hji : j = i
      · subst hji
        obtain hd | ⟨hu', hbh'⟩ := hsaved bid b hu hbh hb
        · exact .inl hd
        · exact .inr ⟨j, by simpa using hu', by simpa [State.setTask] using hbh', hlast⟩
      · exact .inr ⟨j, by simpa [Function.update_of_ne hji] using hu,
          by simpa [State.setTask, Function.update_of_ne hji] using hbh, hlast⟩
  · rw [hchanges]
    exact h.shown bid nr j hj
  · rw [hchanges] at hj
    exact h.changed j bid nr v hj
  · by_cases hji : j = i
    · subst hji
      rw [Function.update_self] at hj
      exact hmissed hj
    · rw [Function.update_of_ne hji] at hj
      exact h.missed j hj

/-- A call could not have a buffer. -/
theorem Inv.miss (h : Inv names s modes) (i : ℕ) : Inv names (s.miss i) modes where
  code := h.code
  held := h.held
  saved := h.saved
  shown := h.shown
  changed := h.changed
  missed j hj := by
    change Function.update s.missed i true j = true
    by_cases hji : j = i
    · rw [hji, Function.update_self]
    · rw [Function.update_of_ne hji]
      exact h.missed j hj

/-- A buffer is replaced by one that shows the same. -/
theorem Inv.setBuffer (h : Inv names s modes) {bid : ℕ} {b' : Buffer}
    (hshow : ∀ nr, Mem.testBit b'.data nr = s.shows bid nr)
    (hdirty : ∀ b, s.cache bid = some b → b.dirty = true → b'.dirty = true)
    (hrefs : ∀ i, (modes i).buffer = some bid → i ∈ b'.refs) :
    Inv names (s.setBuffer bid (some b')) modes := by
  have hother : ∀ x, x ≠ bid → (s.setBuffer bid (some b')).cache x = s.cache x := fun x hx =>
    Function.update_of_ne hx _ _
  have hself : (s.setBuffer bid (some b')).cache bid = some b' := Function.update_self _ _ _
  refine ⟨h.code, fun j x hj => ?_, fun x b nr hb hne => ?_, fun x nr j hj => ?_, h.changed,
    h.missed⟩
  · obtain ⟨hbh, b, hb, hmem⟩ := h.held j x hj
    by_cases hx : x = bid
    · subst hx
      exact ⟨hbh, b', hself, hrefs j hj⟩
    · exact ⟨hbh, b, by rw [hother x hx]; exact hb, hmem⟩
  · by_cases hx : x = bid
    · subst hx
      obtain rfl : b' = b := Option.some.inj (hself.symm.trans hb)
      have hne' : s.shows x nr ≠ Mem.testBit (s.disk x) nr := by
        rw [← hshow]
        exact hne
      rw [State.shows] at hne'
      cases hc : s.cache x with
      | none =>
          rw [hc] at hne'
          exact absurd rfl hne'
      | some b =>
          rw [hc] at hne'
          exact (h.saved x b nr hc hne').imp_left (hdirty b hc)
    · exact h.saved x b nr (by rw [← hother x hx]; exact hb) hne
  · have hsame : (s.setBuffer bid (some b')).shows x nr = s.shows x nr := by
      by_cases hx : x = bid
      · subst hx
        rw [← hshow, State.shows, hself]
      · rw [State.shows, State.shows, hother x hx]
        rfl
    rw [hsame]
    exact h.shown x nr j hj

/-- The buffer a call points to, and what it shows. -/
theorem State.of_buffer {i bid : ℕ} {b : Buffer} (h : s.buffer i = some (bid, b)) :
    (s.tasks i).bh = some bid ∧ s.cache bid = some b ∧
      ∀ nr, s.shows bid nr = Mem.testBit b.data nr := by
  rw [State.buffer, Option.bind_eq_some_iff] at h
  obtain ⟨x, hx, h⟩ := h
  rw [Option.map_eq_some_iff] at h
  obtain ⟨b', hb, h⟩ := h
  obtain ⟨rfl, rfl⟩ := Prod.mk.inj h
  refine ⟨hx, hb, fun nr => ?_⟩
  rw [State.shows, hb]

/-- A call changes a bit of the buffer it holds. -/
theorem Inv.change (h : Inv names s modes) {i bid nr : ℕ} {b : Buffer} {data : ℕ → UInt8}
    {v : Bool} {c : Code ρ} (hb : s.buffer i = some (bid, b)) (hmode : modes i = .held bid)
    (hdata : ∀ k, Mem.testBit data k = if k = nr then v else Mem.testBit b.data k)
    (hcode : c.Ok (names i) (.changed bid nr v)) :
    Inv names ((s.change i bid nr { b with data := data }).setTask i ⟨c, some bid⟩)
      (Function.update modes i (.changed bid nr v)) := by
  obtain ⟨hbh, hc, hshow⟩ := State.of_buffer hb
  set s' := (s.change i bid nr { b with data := data }).setTask i ⟨c, some bid⟩
  have hself : s'.cache bid = some { b with data := data } := Function.update_self _ _ _
  have hother : ∀ x, x ≠ bid → s'.cache x = s.cache x := fun x hx => Function.update_of_ne hx _ _
  have htask : s'.tasks i = ⟨c, some bid⟩ := Function.update_self _ _ _
  have htasks : ∀ j, j ≠ i → s'.tasks j = s.tasks j := fun j hj => Function.update_of_ne hj _ _
  have hchanges : ∀ x k, s'.changes x k =
      if x = bid ∧ k = nr then i :: s.changes x k else s.changes x k := fun _ _ => rfl
  have hlast : ∀ x k, s'.last x k = if x = bid ∧ k = nr then some i else s.last x k := by
    intro x k
    rw [State.last, hchanges]
    split <;> rfl
  refine ⟨fun j => ?_, fun j x hj => ?_, fun x b' k hb' hne => ?_, fun x k j hj => ?_,
    fun j x k u hj => ?_, fun j hj => ?_⟩
  · by_cases hji : j = i
    · rw [hji, htask, Function.update_self]
      exact hcode
    · rw [htasks j hji, Function.update_of_ne hji]
      exact h.code j
  · by_cases hji : j = i
    · rw [hji, Function.update_self] at hj
      obtain rfl : bid = x := Option.some.inj hj
      obtain ⟨-, b₀, hb₀, hmem⟩ := h.held i bid (by rw [hmode]; rfl)
      obtain rfl : b = b₀ := Option.some.inj (hc.symm.trans hb₀)
      exact ⟨by rw [hji, htask], _, hself, by rw [hji]; exact hmem⟩
    · rw [Function.update_of_ne hji] at hj
      obtain ⟨hbh', b₀, hb₀, hmem⟩ := h.held j x hj
      refine ⟨by rw [htasks j hji]; exact hbh', ?_⟩
      by_cases hx : x = bid
      · subst hx
        obtain rfl : b = b₀ := Option.some.inj (hc.symm.trans hb₀)
        exact ⟨_, hself, hmem⟩
      · exact ⟨b₀, by rw [hother x hx]; exact hb₀, hmem⟩
  · -- a call with something unsaved is not the one that makes this change
    have hkeep : ∀ b₀ : Buffer, s.cache x = some b₀ → ¬(x = bid ∧ k = nr) →
        Mem.testBit b₀.data k ≠ Mem.testBit (s.disk x) k → b₀.dirty = true ∨
          ∃ j, (Function.update modes i (.changed bid nr v) j).unsaved = some x ∧
            (s'.tasks j).bh = some x ∧ s'.last x k = some j := by
      intro b₀ hb₀ hxk hne₀
      obtain hd | ⟨j, hu, hbh', hl⟩ := h.saved x b₀ k hb₀ hne₀
      · exact .inl hd
      · have hji : j ≠ i := by
          rintro rfl
          rw [hmode] at hu
          exact Option.some_ne_none _ hu.symm
        refine .inr ⟨j, ?_, ?_, ?_⟩
        · rw [Function.update_of_ne hji]
          exact hu
        · rw [htasks j hji]
          exact hbh'
        · rw [hlast, if_neg hxk]
          exact hl
    by_cases hx : x = bid
    · subst hx
      obtain rfl : { b with data := data } = b' := Option.some.inj (hself.symm.trans hb')
      by_cases hk : k = nr
      · refine .inr ⟨i, ?_, ?_, ?_⟩
        · rw [Function.update_self]
          rfl
        · rw [htask]
        · rw [hlast, if_pos ⟨rfl, hk⟩]
      · refine hkeep b hc (fun hxk => hk hxk.2) ?_
        rw [hdata k, if_neg hk] at hne
        exact hne
    · rw [hother x hx] at hb'
      exact hkeep b' hb' (fun hxk => hx hxk.1) hne
  · rw [hlast] at hj
    by_cases hxk : x = bid ∧ k = nr
    · rw [if_pos hxk] at hj
      obtain rfl : i = j := Option.some.inj hj
      obtain ⟨rfl, rfl⟩ := hxk
      rw [Function.update_self, State.shows, hself]
      simp only [hdata, if_true]
      rfl
    · rw [if_neg hxk] at hj
      have hold := h.shown x k j hj
      have hji : j ≠ i := by
        rintro rfl
        rw [hmode] at hold
        exact Option.some_ne_none _ hold.symm
      have hsame : s'.shows x k = s.shows x k := by
        by_cases hx : x = bid
        · subst hx
          rw [State.shows, hself, hshow]
          simp only [hdata, if_neg fun hk => hxk ⟨rfl, hk⟩]
        · rw [State.shows, State.shows, hother x hx]
          rfl
      rw [Function.update_of_ne hji, hsame]
      exact hold
  · rw [hchanges]
    by_cases hji : j = i
    · subst hji
      rw [Function.update_self] at hj
      obtain ⟨rfl, hk⟩ := Prod.mk.inj (Option.some.inj hj)
      rw [if_pos ⟨rfl, (Prod.mk.inj hk).1.symm⟩]
      exact List.mem_cons_self
    · rw [Function.update_of_ne hji] at hj
      have hold := h.changed j x k u hj
      split
      · exact List.mem_cons_of_mem _ hold
      · exact hold
  · by_cases hji : j = i
    · rw [hji, Function.update_self] at hj
      exact absurd hj Mode.noConfusion
    · rw [Function.update_of_ne hji] at hj
      exact h.missed j hj

/-- The buffer of a block is dropped. -/
theorem Inv.drop (h : Inv names s modes) {bid : ℕ} {b : Buffer} (hb : s.cache bid = some b)
    (hrefs : b.refs = []) (hdirty : b.dirty = false) (hcalm : Calm s (.reclaim bid)) :
    Inv names (s.drop bid) modes := by
  have hself : (s.drop bid).cache bid = none := Function.update_self _ _ _
  have hother : ∀ x, x ≠ bid → (s.drop bid).cache x = s.cache x := fun x hx =>
    Function.update_of_ne hx _ _
  have hcode : ∀ i, ((s.drop bid).tasks i).code = (s.tasks i).code := by
    intro i
    change (if (s.tasks i).bh = some bid then _ else _ : Task ρ).code = _
    split <;> rfl
  have hbh : ∀ i x, x ≠ bid → (s.tasks i).bh = some x → ((s.drop bid).tasks i).bh = some x := by
    intro i x hx hi
    change (if (s.tasks i).bh = some bid then _ else _ : Task ρ).bh = _
    rw [if_neg fun hbid => hx (Option.some.inj (hi.symm.trans hbid))]
    exact hi
  -- nobody holds the buffer, so that whoever has something unsaved in it is about to mark it dirty
  have hfree : ∀ i, (modes i).buffer ≠ some bid := by
    intro i hi
    obtain ⟨-, b', hb', hmem⟩ := h.held i bid hi
    obtain rfl : b = b' := Option.some.inj (hb.symm.trans hb')
    rw [hrefs] at hmem
    exact List.not_mem_nil hmem
  have hsame : ∀ nr, Mem.testBit b.data nr = Mem.testBit (s.disk bid) nr := by
    intro nr
    by_contra hne
    obtain hd | ⟨i, hu, hi, hlast⟩ := h.saved bid b nr hb hne
    · rw [hdirty] at hd
      exact Bool.false_ne_true hd
    · have hnone : (modes i).buffer = none := by
        cases hm : modes i with
        | changed x y v =>
            rw [hm] at hu
            exact absurd (by rw [hm]; exact hu) (hfree i)
        | loose x y v => rfl
        | idle | failed | held _ | marked _ _ _ | done _ _ _ =>
            rw [hm] at hu
            exact absurd hu.symm (Option.some_ne_none _)
      obtain ⟨k, hk⟩ := (h.code i).loose hu hnone
      exact hne (hcalm b i nr k hb hi hk hlast)
  refine ⟨fun i => ?_, fun i x hi => ?_, fun x b' nr hb' hne => ?_, fun x nr i hi => ?_, h.changed,
    h.missed⟩
  · rw [hcode]
    exact h.code i
  · obtain ⟨hi', b', hb', hmem⟩ := h.held i x hi
    have hx : x ≠ bid := fun hx => hfree i (by rw [← hx]; exact hi)
    exact ⟨hbh i x hx hi', b', by rw [hother x hx]; exact hb', hmem⟩
  · have hx : x ≠ bid := by
      rintro rfl
      rw [hself] at hb'
      exact Option.some_ne_none _ hb'.symm
    rw [hother x hx] at hb'
    exact (h.saved x b' nr hb' hne).imp_right fun ⟨i, hu, hi, hl⟩ => ⟨i, hu, hbh i x hx hi, hl⟩
  · have hshow : (s.drop bid).shows x nr = s.shows x nr := by
      by_cases hx : x = bid
      · subst hx
        rw [State.shows, State.shows, hself, hb]
        exact (hsame nr).symm
      · rw [State.shows, State.shows, hother x hx]
        rfl
    rw [hshow]
    exact h.shown x nr i hi

/-- The buffer of a block is written back. -/
theorem Inv.save (h : Inv names s modes) {bid : ℕ} {b : Buffer} (hb : s.cache bid = some b) :
    Inv names (s.save bid b) modes := by
  have hself : (s.save bid b).cache bid = some { b with dirty := false } :=
    Function.update_self _ _ _
  have hother : ∀ x, x ≠ bid → (s.save bid b).cache x = s.cache x := fun x hx =>
    Function.update_of_ne hx _ _
  have hdisk : (s.save bid b).disk bid = b.data := Function.update_self _ _ _
  have hdisk' : ∀ x, x ≠ bid → (s.save bid b).disk x = s.disk x := fun x hx =>
    Function.update_of_ne hx _ _
  refine ⟨h.code, fun i x hi => ?_, fun x b' nr hb' hne => ?_, fun x nr i hi => ?_, h.changed,
    h.missed⟩
  · obtain ⟨hi', b', hb', hmem⟩ := h.held i x hi
    by_cases hx : x = bid
    · subst hx
      obtain rfl : b = b' := Option.some.inj (hb.symm.trans hb')
      exact ⟨hi', _, hself, hmem⟩
    · exact ⟨hi', b', by rw [hother x hx]; exact hb', hmem⟩
  · by_cases hx : x = bid
    · subst hx
      obtain rfl := Option.some.inj (hself.symm.trans hb')
      rw [hdisk] at hne
      exact absurd rfl hne
    · rw [hother x hx] at hb'
      rw [hdisk' x hx] at hne
      exact h.saved x b' nr hb' hne
  · have hshow : (s.save bid b).shows x nr = s.shows x nr := by
      by_cases hx : x = bid
      · subst hx
        rw [State.shows, State.shows, hself, hb]
      · rw [State.shows, State.shows, hother x hx, hdisk' x hx]
    rw [hshow]
    exact h.shown x nr i hi

/-- A call that is idle gets a buffer. -/
theorem Inv.acquire (h : Inv names s modes) {i bid : ℕ} {c : Code ρ} (hidle : modes i = .idle)
    (hcode : c.Ok (names i) (.held bid)) :
    Inv names ((s.setBuffer bid (some (s.acquire bid i))).setTask i ⟨c, some bid⟩)
      (Function.update modes i (.held bid)) := by
  have hdirty : ∀ b, s.cache bid = some b → b.dirty = true → (s.acquire bid i).dirty = true := by
    intro b hb hd
    rw [State.acquire, hb]
    exact hd
  have hrefs : ∀ j, (modes j).buffer = some bid → j ∈ (s.acquire bid i).refs := by
    intro j hj
    obtain ⟨-, b, hb, hmem⟩ := h.held j bid hj
    rw [State.acquire, hb]
    exact List.mem_cons_of_mem _ hmem
  have hmem : i ∈ (s.acquire bid i).refs := by
    rw [State.acquire]
    cases s.cache bid <;> exact List.mem_cons_self
  refine (h.setBuffer (s.testBit_acquire bid i) hdirty hrefs).setTask hcode ?_ ?_ ?_ Mode.noConfusion
  · intro x hx
    obtain rfl : bid = x := Option.some.inj hx
    exact ⟨rfl, _, Function.update_self _ _ _, hmem⟩
  · intro x b hu
    rw [hidle] at hu
    exact absurd hu.symm (Option.some_ne_none _)
  · rw [hidle]
    rfl

/-- A call marks a buffer dirty. -/
theorem Inv.mark (h : Inv names s modes) {i bid : ℕ} {b : Buffer} {c : Code ρ}
    (hb : s.buffer i = some (bid, b)) (hcode : c.Ok (names i) (modes i).mark) :
    Inv names ((s.setBuffer bid (some { b with dirty := true })).setTask i ⟨c, (s.tasks i).bh⟩)
      (Function.update modes i (modes i).mark) := by
  obtain ⟨hbh, hc, hshow⟩ := State.of_buffer hb
  have hset : Inv names (s.setBuffer bid (some { b with dirty := true })) modes := by
    refine h.setBuffer (fun nr => (hshow nr).symm) (fun _ _ _ => rfl) fun j hj => ?_
    obtain ⟨-, b', hb', hmem⟩ := h.held j bid hj
    obtain rfl : b = b' := Option.some.inj (hc.symm.trans hb')
    exact hmem
  refine hset.setTask hcode ?_ ?_ (Mode.change_mark _) fun hm => h.missed i (Mode.mark_eq_failed hm)
  · intro x hx
    rw [Mode.buffer_mark] at hx
    exact hset.held i x hx
  · intro x b' _ hbh' hb'
    obtain rfl : bid = x := Option.some.inj (hbh.symm.trans hbh')
    obtain rfl := Option.some.inj ((Function.update_self bid _ s.cache).symm.trans hb')
    exact .inl rfl

/-- A call gives its buffer back. -/
theorem Inv.release (h : Inv names s modes) {i bid : ℕ} {b : Buffer} {c : Code ρ} {m : Mode}
    (hb : s.buffer i = some (bid, b)) (hm : (modes i).release = some m)
    (hcode : c.Ok (names i) m) :
    Inv names ((s.setBuffer bid (some { b with refs := b.refs.erase i })).setTask i
      ⟨c, some bid⟩) (Function.update modes i m) := by
  obtain ⟨hbh, hc, hshow⟩ := State.of_buffer hb
  obtain ⟨hbuf, hchange, hunsaved, hnot⟩ := Mode.buffer_release hm
  have hset : Inv names (s.setTask i ⟨c, some bid⟩) (Function.update modes i m) := by
    refine h.setTask hcode ?_ ?_ hchange fun hfailed => absurd hfailed hnot
    · intro x hx
      rw [hbuf] at hx
      exact absurd hx.symm (Option.some_ne_none _)
    · intro x b' hu hbh' _
      exact .inr ⟨by rw [hunsaved]; exact hu, hbh.symm.trans hbh'⟩
  refine hset.setBuffer (fun nr => (hshow nr).symm) ?_ ?_
  · intro b' hb' hd
    obtain rfl : b = b' := Option.some.inj (hc.symm.trans hb')
    exact hd
  · intro j hj
    have hji : j ≠ i := by
      rintro rfl
      rw [Function.update_self, hbuf] at hj
      exact absurd hj.symm (Option.some_ne_none _)
    rw [Function.update_of_ne hji] at hj
    obtain ⟨-, b', hb', hmem⟩ := h.held j bid hj
    obtain rfl : b = b' := Option.some.inj (hc.symm.trans hb')
    exact (List.mem_erase_of_ne hji).2 hmem

/-- A call that changes nothing goes on. -/
theorem Inv.goOn (h : Inv names s modes) {i : ℕ} {t : Task ρ} (hcode : t.code.Ok (names i) (modes i))
    (hbh : t.bh = (s.tasks i).bh) : Inv names (s.setTask i t) modes := by
  have hset := h.setTask hcode (fun x hx => by rw [hbh]; exact h.held i x hx)
    (fun x b hu hx _ => .inr ⟨hu, by rw [hbh]; exact hx⟩) rfl (h.missed i)
  rw [Function.update_eq_self] at hset
  exact hset

/-- **What one event preserves.** -/
theorem Inv.step (h : Inv names s modes) {e : Event} {s' : State ρ} (hcalm : Calm s e)
    (hs : step s e = some s') : ∃ modes', Inv names s' modes' := by
  cases e with
  | run i ok =>
      have hok := h.code i
      simp only [Cache.step] at hs
      cases hc : (s.tasks i).code with
      | sb_bread bid k =>
          rw [hc] at hs hok
          obtain ⟨hidle, htrue, hfalse⟩ := hok
          dsimp only at hs
          split at hs
          · obtain rfl := Option.some.inj hs
            exact ⟨_, h.acquire hidle htrue⟩
          · obtain rfl := Option.some.inj hs
            refine ⟨_, (h.miss i).setTask (m := .failed) hfalse (fun _ hx => ?_) (fun _ _ hu => ?_) ?_
              fun _ => Function.update_self _ _ _⟩
            · exact absurd hx.symm (Option.some_ne_none _)
            · rw [hidle] at hu
              exact absurd hu.symm (Option.some_ne_none _)
            · rw [hidle]
              rfl
      | test_and_set_bit nr k =>
          rw [hc] at hs hok
          obtain ⟨bid, hmode, htrue, hfalse⟩ := hok
          obtain ⟨⟨x, b⟩, hb, rfl⟩ := Option.map_eq_some_iff.1 hs
          obtain ⟨hbh, -⟩ := State.of_buffer hb
          obtain rfl : x = bid :=
            Option.some.inj (hbh.symm.trans (h.held i bid (by rw [hmode]; rfl)).1)
          dsimp only
          split
          · exact ⟨_, h.goOn (by rw [hmode]; exact htrue) hbh.symm⟩
          · exact ⟨_, h.change hb hmode (Mem.testBit_setBit b.data nr) hfalse⟩
      | test_and_clear_bit nr k =>
          rw [hc] at hs hok
          obtain ⟨bid, hmode, htrue, hfalse⟩ := hok
          obtain ⟨⟨x, b⟩, hb, rfl⟩ := Option.map_eq_some_iff.1 hs
          obtain ⟨hbh, -⟩ := State.of_buffer hb
          obtain rfl : x = bid :=
            Option.some.inj (hbh.symm.trans (h.held i bid (by rw [hmode]; rfl)).1)
          dsimp only
          split
          · exact ⟨_, h.change hb hmode (Mem.testBit_clearBit b.data nr) htrue⟩
          · exact ⟨_, h.goOn (by rw [hmode]; exact hfalse) hbh.symm⟩
      | mark_buffer_dirty k =>
          rw [hc] at hs hok
          dsimp only at hs
          cases hb : s.buffer i with
          | some p =>
              rw [hb] at hs
              obtain rfl := Option.some.inj hs
              exact ⟨_, h.mark hb hok⟩
          | none =>
              rw [hb] at hs
              obtain rfl := Option.some.inj hs
              refine ⟨_, h.setTask (m := (modes i).mark) hok ?_ ?_ (Mode.change_mark _) fun hm =>
                h.missed i (Mode.mark_eq_failed hm)⟩
              · intro x hx
                rw [Mode.buffer_mark] at hx
                exact h.held i x hx
              · -- the pointer dangles
                intro x b _ hx hbx
                rw [State.buffer, hx, Option.bind_some, hbx] at hb
                exact absurd hb (Option.some_ne_none _)
      | brelse k =>
          rw [hc] at hs hok
          obtain ⟨m, hm, hcode⟩ := hok
          obtain ⟨⟨x, b⟩, hb, rfl⟩ := Option.map_eq_some_iff.1 hs
          exact ⟨_, h.release hb hm hcode⟩
      | ret r =>
          rw [hc] at hs
          exact absurd hs.symm (Option.some_ne_none _)
      | panic =>
          rw [hc] at hs
          exact absurd hs.symm (Option.some_ne_none _)
  | reclaim bid =>
      simp only [Cache.step] at hs
      cases hb : s.cache bid with
      | none =>
          rw [hb] at hs
          exact absurd hs.symm (Option.some_ne_none _)
      | some b =>
          rw [hb] at hs
          dsimp only at hs
          split at hs
          · rename_i hfree
            obtain rfl := Option.some.inj hs
            exact ⟨modes, h.drop hb hfree.1 hfree.2 hcalm⟩
          · exact absurd hs.symm (Option.some_ne_none _)
  | writeback bid =>
      simp only [Cache.step] at hs
      cases hb : s.cache bid with
      | none =>
          rw [hb] at hs
          exact absurd hs.symm (Option.some_ne_none _)
      | some b =>
          rw [hb] at hs
          dsimp only at hs
          split at hs
          · obtain rfl := Option.some.inj hs
            exact ⟨modes, h.save hb⟩
          · exact absurd hs.symm (Option.some_ne_none _)

end Step

/-! ### Runs -/

section Runs

variable {names : ℕ → ρ → ℕ → ℕ → Bool → Prop} {s₀ s : State ρ}

/-- Calls that have not begun, over a cache in which what is not on the device is dirty. -/
structure Start (names : ℕ → ρ → ℕ → ℕ → Bool → Prop) (s : State ρ) : Prop where
  code : ∀ i, (s.tasks i).code.Ok (names i) .idle
  saved : ∀ bid b nr, s.cache bid = some b →
    Mem.testBit b.data nr ≠ Mem.testBit (s.disk bid) nr → b.dirty = true
  changes : ∀ bid nr, s.changes bid nr = []

theorem Start.inv (h : Start names s) : Inv names s fun _ => .idle where
  code := h.code
  held _ _ hi := absurd hi.symm (Option.some_ne_none _)
  saved bid b nr hb hne := .inl (h.saved bid b nr hb hne)
  shown bid nr i hi := by
    rw [State.last, h.changes] at hi
    exact absurd hi.symm (Option.some_ne_none _)
  changed _ _ _ _ hi := absurd hi.symm (Option.some_ne_none _)
  missed _ hi := absurd hi Mode.noConfusion

theorem inv_of_reaches (h : Start names s₀) (hr : Reaches Calm s₀ s) :
    ∃ modes, Inv names s modes := by
  induction hr with
  | refl => exact ⟨_, h.inv⟩
  | tail _ hstep ih =>
      obtain ⟨modes, hinv⟩ := ih
      obtain ⟨e, hcalm, hs⟩ := hstep
      exact hinv.step hcalm hs

/-- **Every change is kept**: once the call that was the last to change a bit has returned, the
result announces the bit, and the bit is shown. -/
theorem shown_of_reaches (h : Start names s₀) (hr : Reaches Calm s₀ s) {bid nr i : ℕ} {r : ρ}
    (hlast : s.last bid nr = some i) (hret : (s.tasks i).code = .ret r) :
    names i r bid nr (s.shows bid nr) := by
  obtain ⟨modes, hinv⟩ := inv_of_reaches h hr
  have hshown := hinv.shown bid nr i hlast
  have hok := hinv.code i
  rw [hret] at hok
  obtain ⟨hidle, -⟩ | hfailed | ⟨x, y, v, hdone, hname⟩ := hok
  · rw [hidle] at hshown
    exact absurd hshown.symm (Option.some_ne_none _)
  · rw [hfailed] at hshown
    exact absurd hshown.symm (Option.some_ne_none _)
  · rw [hdone] at hshown
    obtain ⟨rfl, hshown⟩ := Prod.mk.inj (Option.some.inj hshown)
    obtain ⟨rfl, rfl⟩ := Prod.mk.inj hshown
    exact hname

/-- **A returned result was worked for**: a call that could have its buffers and whose result
announces something has changed a bit that the result announces. -/
theorem changed_of_reaches (h : Start names s₀) (hr : Reaches Calm s₀ s) {i : ℕ} {r : ρ}
    (hret : (s.tasks i).code = .ret r) (hread : s.missed i = false) {x y : ℕ} {u : Bool}
    (hname : names i r x y u) : ∃ bid nr v, names i r bid nr v ∧ i ∈ s.changes bid nr := by
  obtain ⟨modes, hinv⟩ := inv_of_reaches h hr
  have hok := hinv.code i
  rw [hret] at hok
  obtain ⟨-, hnone⟩ | hfailed | ⟨bid, nr, v, hdone, hname'⟩ := hok
  · exact absurd hname (hnone x y u)
  · rw [hinv.missed i hfailed] at hread
    exact absurd hread.symm Bool.false_ne_true
  · exact ⟨bid, nr, v, hname', hinv.changed i bid nr v (by rw [hdone]; rfl)⟩

/-- Executing events. -/
def exec (s : State ρ) (es : List Event) : Option (State ρ) := es.foldlM step s

/-- A run that drops nothing. -/
theorem reaches_calm_of_exec {es : List Event} (hes : ∀ e ∈ es, ∀ bid, e ≠ .reclaim bid)
    (h : exec s₀ es = some s) : Reaches Calm s₀ s := by
  induction es generalizing s₀ with
  | nil =>
      obtain rfl := Option.some.inj h
      exact .refl
  | cons e es ih =>
      rw [exec, List.foldlM_cons, Option.bind_eq_bind, Option.bind_eq_some_iff] at h
      obtain ⟨s₁, hs, h⟩ := h
      have hcalm : Calm s₀ e := by
        cases e with
        | run i ok => trivial
        | reclaim bid => exact absurd rfl (hes _ List.mem_cons_self bid)
        | writeback bid => trivial
      exact .head ⟨e, hcalm, hs⟩ (ih (fun e he => hes e (List.mem_cons_of_mem _ he)) h)

theorem reaches_of_exec {es : List Event} (h : exec s₀ es = some s) :
    Reaches (fun _ _ => True) s₀ s := by
  induction es generalizing s₀ with
  | nil =>
      obtain rfl := Option.some.inj h
      exact .refl
  | cons e es ih =>
      rw [exec, List.foldlM_cons, Option.bind_eq_bind, Option.bind_eq_some_iff] at h
      obtain ⟨s₁, hs, h⟩ := h
      exact .head ⟨e, trivial, hs⟩ (ih h)

end Runs

end Cache
