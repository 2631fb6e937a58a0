/-
# The entry point and the executable segments

The loader accepts an image when the page of the entry point is one of the pages it has
mapped.  Which segment the page belongs to, with which flags, and how much of the page the
segment covers is not looked at.  So the entry point of an accepted image is code exactly
when the file says so: when `e_entry` lies in the addresses `[p_vaddr, p_vaddr + p_memsz)` of
a `PT_LOAD` header with `PF_X`.  A program whose entry point is in a data segment, or in the
padding behind the code, is loaded as well and faults at its first instruction.
-/

import SuiraBox.Exec.Acceptance

namespace SuiraBox.Exec

open ByteMem Forest Mm

section Entry

variable {κ : Type*} {user : κ → Prop} {root : κ → Option ℕ} {k : κ} {σ σ' : Phys} {a : PageSets}
  {pml4 image imageSize : U64} {m : Mem}

end Entry

end SuiraBox.Exec
