/-
# The tested allocator and the shipped one

The host tests are compiled against `kernel/mm/pmm.c` (64 MiB), the kernel against
`kernel/mm/pmm_bootstrap.c` (256 MiB).  As long as no range ends above 64 MiB both
refine the same sets of pages, whatever addresses are given to `pmm_free_page`:
one between the limits is no page for the first and no allocated page for the
second.  So no caller can tell them apart.
-/

import SuiraBox.Mm.PageSets

namespace SuiraBox.Mm

open Runs

/-- A range that ends within the first 64 MiB. -/
structure HostRange where
  start : U64
  stop : U64
  bounded : stop.toNat ≤ 64 * 1024 * 1024

/-- The calls that set the allocator up. -/
inductive HostBoot
  | reset
  | init (r : HostRange)

/-- The calls of the allocator's interface. -/
inductive HostCall
  | boot (b : HostBoot)
  | addUsableRange (r : HostRange)
  | reserveRange (r : HostRange)
  | allocPage
  | freePage (address : U64)
  | freePages

/-- The boot call without the bound on its range. -/
def HostBoot.toBoot : HostBoot → PmmBoot
  | .reset => .reset
  | .init r => .init r.start r.stop

/-- One call, and what it returns. -/
def hostStep (L : PmmLimit) (s : Pmm) : HostCall → Option U64 × Pmm
  | .boot b => (none, b.toBoot.state L s)
  | .addUsableRange r => pmmStep L s (.addUsableRange r.start r.stop)
  | .reserveRange r => pmmStep L s (.reserveRange r.start r.stop)
  | .allocPage => pmmStep L s .allocPage
  | .freePage address => pmmStep L s (.freePage address)
  | .freePages => (some (pmmFreePages s), s)

/-- Both allocators stand for the same sets of pages. -/
def SameSets (s t : Pmm) : Prop := ∃ a, Refines hostLimit s a ∧ Refines bootstrapLimit t a

/-- A range below 64 MiB holds the same pages for both. -/
theorem insidePages_host (r : HostRange) :
    insidePages hostLimit r.start r.stop = insidePages bootstrapLimit r.start r.stop := by
  have hhost : hostLimit.pages = 16384 := rfl
  have hkernel : bootstrapLimit.pages = 65536 := rfl
  have hbound := r.bounded
  ext p
  rw [mem_insidePages, mem_insidePages, hhost, hkernel, Inside]
  omega

/-- Both allocators start with the same sets of pages. -/
theorem boot_sameSets (s t : Pmm) (b : HostBoot) :
    SameSets (b.toBoot.state hostLimit s) (b.toBoot.state bootstrapLimit t) := by
  have hsets : b.toBoot.sets hostLimit = b.toBoot.sets bootstrapLimit := by
    cases b with
    | reset => rfl
    | init r => rw [HostBoot.toBoot, PmmBoot.sets, PmmBoot.sets, insidePages_host]
  refine ⟨b.toBoot.sets bootstrapLimit, ?_, pmmBoot_refines bootstrapLimit t b.toBoot⟩
  rw [← hsets]
  exact pmmBoot_refines hostLimit s b.toBoot

/-- A call that does the same to the sets at both limits. -/
theorem pmmStep_sameSets {s t : Pmm} (h : SameSets s t) {call : PmmCall}
    (hcall : ∀ a : PageSets, a.step hostLimit call = a.step bootstrapLimit call) :
    (pmmStep hostLimit s call).1 = (pmmStep bootstrapLimit t call).1 ∧
      SameSets (pmmStep hostLimit s call).2 (pmmStep bootstrapLimit t call).2 := by
  obtain ⟨a, hs, ht⟩ := h
  obtain ⟨hout, hnext⟩ := pmmStep_refines hs call
  obtain ⟨hout', hnext'⟩ := pmmStep_refines ht call
  rw [hcall] at hout hnext
  exact ⟨hout.trans hout'.symm, _, hnext, hnext'⟩

/-- **One call**: the same answer, and the same sets again. -/
theorem hostStep_sameSets (s t : Pmm) (call : HostCall) (h : SameSets s t) :
    (hostStep hostLimit s call).1 = (hostStep bootstrapLimit t call).1 ∧
      SameSets (hostStep hostLimit s call).2 (hostStep bootstrapLimit t call).2 := by
  cases call with
  | boot b => exact ⟨rfl, boot_sameSets s t b⟩
  | addUsableRange r =>
    exact pmmStep_sameSets h fun a => by rw [PageSets.step, PageSets.step, insidePages_host]
  | reserveRange r =>
    exact pmmStep_sameSets h fun a => by rw [PageSets.step, PageSets.step, insidePages_host]
  | allocPage => exact pmmStep_sameSets h fun a => rfl
  | freePage address => exact pmmStep_sameSets h fun a => rfl
  | freePages =>
    obtain ⟨a, hs, ht⟩ := h
    refine ⟨congrArg some (BitVec.eq_of_toNat_eq ?_), a, hs, ht⟩
    exact hs.freeCount.trans ht.freeCount.symm

/-- **The tested allocator is the shipped allocator.**  From any values of the static
variables, after `pmm_reset` or `pmm_init` and any calls with ranges below 64 MiB,
the two give the same answers. -/
theorem host_outputs_eq (s t : Pmm) (b : HostBoot) (calls : List HostCall) :
    outputs (hostStep hostLimit) s (.boot b :: calls) =
      outputs (hostStep bootstrapLimit) t (.boot b :: calls) := by
  rw [outputs, outputs]
  exact congrArg _ (run_simulation hostStep_sameSets calls (boot_sameSets s t b)).1

end SuiraBox.Mm
