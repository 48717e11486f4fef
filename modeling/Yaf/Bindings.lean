/-
**A directory stands for a finite map.**

The log of a run says what every name of every directory is bound to: a creation that succeeds
binds its name to the number of the new inode, a removal that succeeds unbinds its name.  The slots
of the directory say the same.

Main definitions:

* `Yaf.bindings` — the finite maps of a log;
* `Yaf.World.Represents` — **the slots of a directory stand for a finite map**.

Main results:

* `Yaf.Namespace.Inv.bound_step` — what a step does to the bindings;
* `Yaf.bindings_of_run` — **every directory stands for the map of the log**;
* `Yaf.not_bindings_reread` — a lookup that reads an old inode breaks it.
-/

import Yaf.Agreement
import Yaf.Consistency

set_option relaxedAutoImplicit false
set_option autoImplicit false

namespace Yaf

open Prog

variable {w : World} {s s' : Namespace}

/-! ### The map of a log -/

/-- The name an operation creates or removes. -/
def Op.target : Op → Option (ℕ × List UInt8)
  | .create p q _ | .mkdir p q _ | .unlink p q _ | .rmdir p q _ => some (p, q.name)
  | _ => none

/-- What the names of the directories are bound to. -/
abbrev Bindings : Type := ℕ → List UInt8 → Option ℕ

/-- An operation that succeeds binds its name to what it replies: a new inode number when something
was created, nothing when something was removed. -/
def bind (m : Bindings) (x : Op × Reply) : Bindings := fun p name =>
  if x.1.target = some (p, name) ∧ x.2.1 = 0 then x.2.2 else m p name

/-- **The maps of a log.**  At first nothing is bound. -/
def bindings (l : List (Op × Reply)) : Bindings := l.foldl bind fun _ _ => none

theorem bindings_snoc (l : List (Op × Reply)) (x : Op × Reply) :
    bindings (l ++ [x]) = bind (bindings l) x := by
  rw [bindings, List.foldl_append]
  rfl

/-! ### What the steps bind -/

theorem Qstr.eq_of_name {q q' : Qstr} (h : q.name = q'.name) : q = q' := by
  cases q
  cases q'
  cases h
  rfl

namespace Namespace.Inv

/-- The slots determine the bindings. -/
theorem bound_congr (h : s.Inv) (h' : s'.Inv) (hslot : s'.slot = s.slot) (p : ℕ) (q : Qstr) :
    s'.bound p q = s.bound p q := by
  refine Option.ext fun ino => ?_
  rw [h'.bound_iff, h.bound_iff, hslot]

/-- A creation binds its name. -/
theorem bound_link (h : s.Inv) (h' : s'.Inv) {p j n : ℕ} {q : Qstr} (hfree : s.slot p j = none)
    (hb : s.bound p q = none) (hslot : s'.slot = Forest.put s.slot p j (some (q.name, n)))
    (p' : ℕ) (q' : Qstr) :
    s'.bound p' q' = if (p, q.name) = (p', q'.name) then some n else s.bound p' q' := by
  refine Option.ext fun ino => ?_
  have hput : s'.bound p' q' = some ino ↔
      (p' = p ∧ q'.name = q.name ∧ ino = n) ∨ s.bound p' q' = some ino := by
    rw [h'.bound_iff, h.bound_iff, hslot]
    exact Forest.binds_put_some hfree
  rw [hput]
  by_cases hsame : p = p' ∧ q.name = q'.name
  · obtain ⟨rfl, hname⟩ := hsame
    obtain rfl : q = q' := Qstr.eq_of_name hname
    rw [hb, if_pos rfl, Option.some_inj]
    simp [eq_comm]
  · rw [if_neg fun he => hsame ((Prod.mk.injEq ..).mp he)]
    exact or_iff_right fun hno => hsame ⟨hno.1.symm, hno.2.1.symm⟩

/-- A removal unbinds its name. -/
theorem bound_drop (h : s.Inv) (h' : s'.Inv) {p j ino : ℕ} {q : Qstr}
    (he : s.slot p j = some (q.name, ino)) (hslot : s'.slot = Forest.put s.slot p j none)
    (p' : ℕ) (q' : Qstr) :
    s'.bound p' q' = if (p, q.name) = (p', q'.name) then none else s.bound p' q' := by
  refine Option.ext fun c => ?_
  have hput : s'.bound p' q' = some c ↔
      s.bound p' q' = some c ∧ ¬(p' = p ∧ q'.name = q.name) := by
    rw [h'.bound_iff, h.bound_iff, hslot]
    exact Forest.binds_put_none h.tree he
  rw [hput]
  by_cases hsame : p = p' ∧ q.name = q'.name
  · obtain ⟨rfl, hname⟩ := hsame
    rw [hname, if_pos rfl]
    simp
  · rw [if_neg fun he => hsame ((Prod.mk.injEq ..).mp he)]
    exact and_iff_left fun hno => hsame ⟨hno.1.symm, hno.2.symm⟩

/-- **What a step does to the bindings.** -/
theorem bound_step (h : s.Inv) {op : Op} (hpre : s.Pre op) (hop : op.isNamespace = true)
    {r : Reply} (hs : s.step op = some (r, s')) (p : ℕ) (q : Qstr) :
    s'.bound p q =
      if op.target = some (p, q.name) ∧ r.1 = 0 then r.2 else s.bound p q := by
  have h' := h.step hpre hs
  have hcreate : ∀ p' q' mode, s.holds S_ISDIR p' → s.bound p' q' = none →
      s.create p' q' mode = some (r, s') → s'.bound p q =
        if some (p', q'.name) = some (p, q.name) ∧ r.1 = 0 then r.2 else s.bound p q := by
    intro p' q' mode hp hb hs
    unfold Namespace.create at hs
    split at hs
    · obtain ⟨⟨j, s₁⟩, hg, hs⟩ := Option.bind_eq_some_iff.1 hs
      obtain ⟨n, -, hs⟩ := Option.map_eq_some_iff.1 hs
      have hgives := h.getFree (h.core p' hp.1) hp.2 hg
      split at hs
      · cases hs
        have hfree : s.slot p' j = none := by
          rw [← hgives.slot]
          exact hgives.free
        have hslot : (s₁.link p' j q' n mode).slot =
            Forest.put s.slot p' j (some (q'.name, n)) := by
          rw [← hgives.slot]
          rfl
        rw [h.bound_link h' hfree hb hslot]
        simp
      · cases hs
        rw [h.bound_congr h' hgives.slot, if_neg fun hno => absurd hno.2 (by decide)]
    · cases hs
      rw [if_neg fun hno => absurd hno.2 (by decide)]
  have hremove : ∀ p' q' ino, s.bound p' q' = some ino → s.remove p' q' ino = some (r, s') →
      s'.bound p q =
        if some (p', q'.name) = some (p, q.name) ∧ r.1 = 0 then r.2 else s.bound p q := by
    intro p' q' ino hb hs
    obtain ⟨j, he, hrm⟩ := remove_of_bound hb
    rw [hrm] at hs
    cases hs
    rw [h.bound_drop h' he rfl]
    simp
  have hkept : s'.slot = s.slot → op.target = none → s'.bound p q =
      if op.target = some (p, q.name) ∧ r.1 = 0 then r.2 else s.bound p q := by
    intro hslot hnone
    rw [h.bound_congr h' hslot, hnone, if_neg fun hno => by simp at hno]
  cases op with
  | create p' q' mode => exact hcreate p' q' _ hpre.1 hpre.2.1 hs
  | mkdir p' q' mode => exact hcreate p' q' _ hpre.1 hpre.2.1 hs
  | unlink p' q' ino => exact hremove p' q' ino hpre.2.1 hs
  | rmdir p' q' ino =>
      simp only [Namespace.step] at hs
      split at hs
      · cases hs
        rw [if_neg fun hno => absurd hno.2 (by decide)]
      · exact hremove p' q' ino hpre.2.1 hs
  | lookup p' q' =>
      refine hkept ?_ rfl
      obtain rfl : (s.lookup p' q').2 = s' := congrArg Prod.snd (Option.some.inj hs)
      unfold Namespace.lookup
      split
      · cases s.bound p' q' <;> rfl
      · rfl
  | writeInode | evict | tick =>
      cases hs
      exact hkept rfl rfl
  | write | setSize | openFile | closeFile | device => simp [Op.isNamespace] at hop

end Namespace.Inv

/-! ### What lookups find -/

/-- **The slots of the directory `p` stand for a finite map**: the lookup of a name gives the slot
that holds its number, or finds nothing when the map holds nothing; and names that are too long are
refused, with nothing changed. -/
structure World.Represents (w : World) (p : ℕ) (m : List UInt8 → Option ℕ) : Prop where
  found : ∀ (q : Qstr) n, m q.name = some n → ∃ j : ℕ,
    value (_yaf_lookup p q) w = .ok ((YAF_DENTRY_SIZE * j : ℕ) : ℤ) ∧ w.DentryAt p j ⟨q.name, n⟩
  absent : ∀ q : Qstr, q.len ≤ YAF_DENTRY_NAME_LEN →
    (value (_yaf_lookup p q) w = .ok (-ENOENT) ↔ m q.name = none)
  long : ∀ q : Qstr, YAF_DENTRY_NAME_LEN < q.len → ∀ mode,
    ∀ op ∈ [Op.lookup p q, .create p q mode, .mkdir p q mode],
      (step op).run w = .ok ((-ENAMETOOLONG, none), w)

/-- A name that is too long is refused. -/
theorem step_long (w : World) (p : ℕ) {q : Qstr} (hlen : YAF_DENTRY_NAME_LEN < q.len)
    (mode : UInt16) : ∀ op ∈ [Op.lookup p q, .create p q mode, .mkdir p q mode],
      (step op).run w = .ok ((-ENAMETOOLONG, none), w) := by
  have hrun : ∀ op, wp (step op) (fun r w' => r = (-ENAMETOOLONG, none) ∧ w' = w)
      (fun _ => False) w → (step op).run w = .ok ((-ENAMETOOLONG, none), w) := by
    intro op hwp
    obtain ⟨r, w', hr, rfl, rfl⟩ := hwp.exists_ok
    exact hr
  have hcreate : ∀ mode, wp (_yaf_create p q mode)
      (fun r w' => r = (-ENAMETOOLONG, none) ∧ w' = w) (fun _ => False) w := by
    intro mode
    rw [_yaf_create, if_pos hlen]
    exact ⟨rfl, rfl⟩
  intro op hop
  rw [List.mem_cons, List.mem_cons, List.mem_singleton] at hop
  rcases hop with rfl | rfl | rfl
  · refine hrun _ ?_
    simp only [step, yaf_lookup, wp_bind]
    rw [wp_lookup_of_lt hlen, if_pos (by decide), if_neg (by decide)]
    exact ⟨rfl, rfl⟩
  · exact hrun _ (hcreate _)
  · exact hrun _ (hcreate _)

namespace Models

/-- **A directory stands for the bindings of its tree.** -/
theorem represents (h : Models w s) {p : ℕ} (hp : s.holds S_ISDIR p) {m : List UInt8 → Option ℕ}
    (hm : ∀ q : Qstr, s.bound p q = m q.name) : w.Represents p m := by
  have hval : ∀ q : Qstr, q.len ≤ 24 → value (_yaf_lookup p q) w =
      .ok ((s.named p q).elim (- ENOENT) fun j => ((32 * j : ℕ) : ℤ)) := by
    intro q hlen
    refine value_of_wp (h.wp_lookup h.inv hp hlen ?_)
    cases s.named p q <;> rfl
  refine ⟨fun q n hn => ?_, fun q hlen => ?_, fun q hlen => step_long w p hlen⟩
  · rw [← hm] at hn
    obtain ⟨hlen, j, hj, he⟩ := Namespace.bound_eq_some hn
    refine ⟨j, ?_, h.dentryAt_iff.2 he⟩
    rw [hval q hlen, hj]
    rfl
  · rw [YAF_DENTRY_NAME_LEN_eq] at hlen
    rw [hval q hlen, ← hm, Namespace.bound, if_pos hlen]
    cases hn : s.named p q with
    | none => exact iff_of_true rfl rfl
    | some j =>
        obtain ⟨-, ino, he⟩ := Namespace.named_eq_some hn
        rw [Option.bind_some, he]
        refine iff_of_false (fun hno => ?_) (Option.some_ne_none ino)
        have hneg : ((32 * j : ℕ) : ℤ) = -ENOENT := Except.ok.inj hno
        have henoent : ENOENT = 2 := rfl
        omega

end Models

/-! ### Runs -/

/-- The tree of a run has the bindings of its log. -/
theorem exists_bound_of_run {v : Volume} (h : v.Ok) {l : List (Op × Reply)}
    (hrun : Run step (fun w op => op.Tame w) (fresh v) l w) :
    ∃ s, Models w s ∧ ∀ p (q : Qstr), s.bound p q = bindings l p q.name := by
  rw [Volume.fresh_eq h] at hrun
  induction hrun with
  | nil =>
      refine ⟨v.tree, Volume.models h, fun p q => ?_⟩
      cases hb : v.tree.bound p q with
      | none => rfl
      | some n =>
          obtain ⟨j, he⟩ := (Volume.models h).inv.bound_iff.1 hb
          simp [Volume.tree] at he
  | snoc _ hop hr ih =>
      obtain ⟨s, hs, hb⟩ := ih
      obtain ⟨s', hstep, hs'⟩ := (hs.step hop).ok hr
      have htame := hs.tame_iff.1 hop
      refine ⟨s', hs', fun p q => ?_⟩
      rw [hs.inv.bound_step htame.1 htame.2.1 hstep, bindings_snoc, bind, hb]

/-- **Every directory stands for the finite map of the log**, in every run of operations on
directories in which no lookup reads an inode that was modified and not written back; and no
operation changes the binding of a name other than its own. -/
theorem bindings_of_run {v : Volume} (h : v.Ok) {l : List (Op × Reply)}
    (hrun : Run step (fun w op => op.Tame w) (fresh v) l w) {p : ℕ}
    (hp : w.holds S_ISDIR p = true) : w.Represents p (bindings l p) ∧
      ∀ op r w', op.Tame w → (step op).run w = .ok (r, w') → w'.holds S_ISDIR p = true →
        ∀ q : Qstr, op.target ≠ some (p, q.name) → w'.boundTo p q = w.boundTo p q := by
  obtain ⟨s, hs, hb⟩ := exists_bound_of_run h hrun
  have hholds := hs.holds_iff.1 hp
  refine ⟨hs.represents hholds (hb p), fun op r w' hop hr hp' q hne => ?_⟩
  obtain ⟨s', hstep, hs'⟩ := (hs.step hop).ok hr
  have htame := hs.tame_iff.1 hop
  rw [hs'.boundTo_eq hs'.inv (hs'.holds_iff.1 hp'), hs.boundTo_eq hs.inv hholds,
    hs.inv.bound_step htame.1 htame.2.1 hstep, if_neg fun hno => hne hno.1]

/-- A slot that is used again, for a name of 24 bytes. -/
theorem bindings_small : ∃ l w, Run step (fun w op => op.Tame w) (fresh .small) l w ∧
    bindings l ROOT_INO (Qstr.letters 23).name = some 2 ∧
    bindings l ROOT_INO (Qstr.letters 0).name = none ∧
    w.Represents ROOT_INO (bindings l ROOT_INO) ∧
      ∀ op r w', op.Tame w → (step op).run w = .ok (r, w') → w'.holds S_ISDIR ROOT_INO = true →
        ∀ q : Qstr, op.target ≠ some (ROOT_INO, q.name) →
          w'.boundTo ROOT_INO q = w.boundTo ROOT_INO q := by
  obtain ⟨l, w, hrun, hp⟩ := Volume.exists_run Volume.small_ok (fun w op => op.Tame w)
    [.create 1 (.letters 0) 0, .mkdir 1 (.letters 1) 0, .unlink 1 (.letters 0) 2,
      .create 1 (.letters 23) 0, .lookup 1 (.letters 2), .create 1 (.letters 24) 0]
    (fun l w => w.holds S_ISDIR ROOT_INO &&
      decide (bindings l ROOT_INO (Qstr.letters 23).name = some 2) &&
        decide (bindings l ROOT_INO (Qstr.letters 0).name = none)) (by decide +kernel)
  rw [Bool.and_eq_true, Bool.and_eq_true, decide_eq_true_eq, decide_eq_true_eq] at hp
  obtain ⟨⟨hdir, hfound⟩, hgone⟩ := hp
  exact ⟨l, w, hrun, hfound, hgone, bindings_of_run Volume.small_ok hrun hdir⟩

/-- A device that held something at the place of inode slot 2: a file of one byte, whose first
block has the number 65792. -/
def Volume.relic : Volume where
  bnr := 64
  old := fun bid off =>
    if bid = 3 then
      Yaf_Inode.writeSlot (fun _ => 0) 128
        ⟨0o100000, 0, 0, 1, 1, 0, 0, 0, fun k => if k.val = 0 then 65792 else RESERVED_DNO⟩
        off
    else 0
  uid := 0
  gid := 0
  now := 0

theorem Volume.relic_ok : Volume.relic.Ok := ⟨le_rfl, by decide⟩

/-- **Removing a file that was read from an old slot**: the bit of block 65792 is looked for past
the data bitmap, in the first block of the root directory, where the inode number of the second
entry is. -/
theorem not_bindings_reread : ∃ l w, Run step
    (fun w op => op.Pre w ∧ op.isNamespace = true ∧ op.overflows w = false) (fresh .relic) l w ∧
    w.holds S_ISDIR ROOT_INO = true ∧ ¬w.Represents ROOT_INO (bindings l ROOT_INO) := by
  obtain ⟨l, w, hrun, hp⟩ := Volume.exists_run Volume.relic_ok
    (fun w op => op.Pre w ∧ op.isNamespace = true ∧ op.overflows w = false)
    [.create 1 (.letters 0) 0, .create 1 (.letters 1) 0, .lookup 1 (.letters 0),
      .unlink 1 (.letters 0) 2]
    (fun l w => w.holds S_ISDIR ROOT_INO &&
      decide (bindings l ROOT_INO (Qstr.letters 1).name = some 3) &&
        decide ((w.entry (w.logical ROOT_INO) 1).map DirEntry.ino = some 2) &&
          decide (value (_yaf_lookup ROOT_INO (.letters 1)) w = .ok 32)) (by decide +kernel)
  rw [Bool.and_eq_true, Bool.and_eq_true, Bool.and_eq_true, decide_eq_true_eq,
    decide_eq_true_eq, decide_eq_true_eq] at hp
  obtain ⟨⟨⟨hdir, hbound⟩, hentry⟩, hval⟩ := hp
  refine ⟨l, w, hrun, hdir, fun hno => ?_⟩
  obtain ⟨j, hj, -, -, -, he⟩ := hno.found (.letters 1) 3 hbound
  rw [hj] at hval
  obtain rfl : j = 1 := by
    have hoff : ((32 * j : ℕ) : ℤ) = 32 := Except.ok.inj hval
    omega
  rw [he] at hentry
  simp at hentry

end Yaf
