/-
# Into ring 3

`process_activate` (`process.c`), `address_space_activate` (`mm/address_space.c`), `arch_enter_user`
(`arch/x86_64/user_mode.S`) and the end of `kmain`, which is their only caller.

`arch_enter_user` builds the frame for `iretq` on the stack of the program: the first push is a
store by ring 0 to a page of ring 3 with bit 63 set.  Without `EFER.NXE` that bit is reserved and
the push faults; all gates stay on the current stack for events in ring 0, so the frames of the page
fault and of the double fault cannot be pushed either, and the processor shuts down.  `boot.S` sets
`EFER.LME` and leaves `NXE` as it finds it.  With `CR4.SMAP` the push faults as well, unless `AC` is
set.  In all other cases the program is entered, with the tables in place for the way back
(`enterProcess_prepared`).

The fetches of the kernel's own instructions are left out.
-/

import SuiraBox.Arch.Gdt
import SuiraBox.Arch.Paging

namespace SuiraBox.Arch

open X64 ByteMem Protection Mm Exec

/-! ### The code -/

/-- `address_space_activate`. -/
def addressSpaceActivate (K : Kernel) (pml4 : U64) : ℤ × Kernel :=
  if pml4 = 0 then (-1, K) else (0, { K with cr3 := pml4 })

/-- `process_activate`. -/
def processActivate (K : Kernel) (process : Option Slot) : ℤ × Kernel :=
  match process with
  | none => (-1, K)
  | some i =>
    if (K.processes i).state = .unused ∨ (K.processes i).state = .exited then (-1, K)
    else addressSpaceActivate K (K.processes i).pml4Physical

/-- `arch_enter_user`, with the lengths of its instructions. -/
def archEnterUser : List (ℕ × Protection.Op) :=
  [(1, .cli), (3, .mov .rsi .rsp), (4, .and (-16) .rsp), (2, .pushImm 0x2B), (1, .pushReg .rsi),
    (1, .pushfq), (8, .orTop 0x200), (2, .pushImm 0x23), (1, .pushReg .rdi), (2, .iretq)]

/-- The processor at the call of `arch_enter_user`. -/
def atCall (s : Cpu) (image : ProcessImage) (m : Mem) : Cpu :=
  { (s.set .rdi image.entryPoint).set .rsi image.userStackTop with mem := m }

/-- The end of `kmain` for the process in slot `i`: `none` if it cannot be activated. -/
def enterProcess (c : Controls) (S : System) (K : Kernel) (i : Slot) (image : ProcessImage)
    (s : Cpu) : Option System.Outcome :=
  let K := K.setProcess i { K.processes i with state := .running }
  let (rc, K) := processActivate K (some i)
  if rc = 0 then
    some ({ S with mmu := paging c K.cr3 }.runCode archEnterUser (atCall s image K.phys.mem))
  else none

theorem atCall_rsi (s : Cpu) (image : ProcessImage) (m : Mem) :
    (atCall s image m).regs .rsi = image.userStackTop :=
  (s.set .rdi image.entryPoint).set_self .rsi image.userStackTop

theorem atCall_rdi (s : Cpu) (image : ProcessImage) (m : Mem) :
    (atCall s image m).regs .rdi = image.entryPoint :=
  ((s.set .rdi image.entryPoint).set_of_ne (show Reg.rdi ≠ .rsi by simp) image.userStackTop).trans
    (s.set_self .rdi image.entryPoint)

/-! ### On a stack that can be used -/

/-- On the way from `s₀` into ring 3, with the part `vs` of the frame pushed. -/
structure Entering (W : Window) (S : System) (P : Protection.Access → Prop) (s₀ s : Cpu)
    (vs : List U64) : Prop where
  stack : W.Stack S P s vs
  rsp : (s.regs .rsp).toNat + 8 * vs.length = W.start + W.size
  regs : ∀ r, r ≠ .rsp → s.regs r = s₀.regs r
  ring : ring s = 0
  mem : W.Within s₀.mem s.mem

section Window

variable {W : Window} {S : System} {P : Protection.Access → Prop} {s₀ s : Cpu}
    {vs : List U64} {v : U64}
  {n : ℕ} {op : Protection.Op} {code : List (ℕ × Protection.Op)}

/-- A push of the frame. -/
theorem Entering.push (h : Entering W S P s₀ s vs) (n : ℕ) (op : Protection.Op)
    (code : List (ℕ × Protection.Op)) (hop : S.exec s op = S.push s v) (hne : op ≠ .iretq)
    (hroom : 8 * (vs.length + 1) ≤ W.size) :
    ∃ t, S.runCode ((n, op) :: code) s = S.runCode code t ∧ Entering W S P s₀ t (v :: vs) := by
  have hrsp := h.rsp
  obtain ⟨heq, hstack, hwithin⟩ := h.stack.push (by omega) v
  have hnext : ((W.push s v).regs .rsp).toNat = (s.regs .rsp).toNat - 8 := by
    change ((s.set .rsp (s.regs .rsp - 8)).regs .rsp).toNat = _
    rw [Cpu.set_self]
    bv_omega
  refine ⟨{ W.push s v with rip := s.rip + BitVec.ofNat 64 n }, ?_, hstack.congr rfl rfl rfl rfl,
    ?_, fun r hr => ?_, h.ring, h.mem.trans hwithin⟩
  · rw [System.runCode_ok (hop.trans heq), if_neg hne]
  · change ((W.push s v).regs .rsp).toNat + _ = _
    rw [hnext, List.length_cons]
    omega
  · exact (s.set_of_ne hr _).trans (h.regs r hr)

/-- `orq` on the top of the frame. -/
theorem Entering.orTop (h : Entering W S P s₀ s (v :: vs)) (n : ℕ) (code : List (ℕ × Protection.Op))
    (imm : U64) :
    ∃ t, S.runCode ((n, .orTop imm) :: code) s = S.runCode code t ∧
      Entering W S P s₀ t ((v ||| imm) :: vs) := by
  obtain ⟨hload, m, hstore, hstack, hwithin⟩ := h.stack.setTop (v ||| imm)
  have hexec : S.exec s (.orTop imm) =
      .ok { s with mem := m, rflags := System.logicFlags (v ||| imm) s.rflags } := by
    rw [System.exec, hload]
    simp only [bind, Except.bind]
    rw [hstore]
  refine ⟨{ s with
      mem := m
      rflags := System.logicFlags (v ||| imm) s.rflags
      rip := s.rip + BitVec.ofNat 64 n }, ?_, hstack.congr rfl rfl rfl ?_, h.rsp, h.regs, h.ring,
    h.mem.trans hwithin⟩
  · rw [System.runCode_ok hexec, if_neg (by simp)]
  · exact System.logicFlags_getLsbD _ _ (by decide) (by decide)

/-- The frame for ring 3. -/
theorem Entering.iretq {rip rflags rsp : U64}
    (h : Entering W S P s₀ s [rip, 0x23, rflags, rsp, 0x2B])
    (hcode : S.descriptor s.mem 0x23 = .ok (segmentDescriptor 0xFA 0x0A))
    (hdata : S.descriptor s.mem 0x2B = .ok (segmentDescriptor 0xF2 0x0C)) (hrip : Canonical rip) :
    S.runCode [(n, .iretq)] s =
      .running { s.set .rsp rsp with rip := rip, cs := 0x23, rflags := rflags, ss := 0x2B } := by
  have hreturn : S.returnCode s 0x23 ((0x23 : U64).toNat % 4) = .ok () := by
    rw [System.returnCode, check_of (by decide), show (0x23 : U64).setWidth 16 = 0x23
      from rfl, hcode]
    simp only [bind, Except.bind]
    rw [check_of (by rw [h.ring]; decide)]
    exact check_of (by decide) 11
  have hstack : S.returnStack s 0x2B ((0x23 : U64).toNat % 4) = .ok () := by
    rw [System.returnStack, if_neg (by decide), show (0x2B : U64).setWidth 16 = 0x2B
      from rfl, hdata]
    simp only [bind, Except.bind]
    rw [check_of (by decide)]
    exact check_of (by decide) 12
  have hexec : S.exec s .iretq = _ := System.iretq_eq h.stack hreturn hstack hrip
  rw [System.runCode_ok hexec, if_pos rfl, System.runCode]

/-- The first three instructions: interrupts are off, and the stack is that of the program. -/
theorem archEnterUser_start (hring : ring s = 0) (haligned : (s.regs .rsi).toNat % 16 = 0) :
    ∃ t, S.runCode archEnterUser s = S.runCode (archEnterUser.drop 3) t ∧
      t.regs .rsp = s.regs .rsi ∧
      (∀ r, r ≠ .rsp → t.regs r = s.regs r) ∧ t.mem = s.mem ∧ t.cs = s.cs ∧
      t.rflags.getLsbD 18 = s.rflags.getLsbD 18 := by
  have hround : s.regs .rsi &&& -16 = s.regs .rsi := by
    refine BitVec.eq_of_toNat_eq ?_
    rw [show (-16 : U64) = ~~~15 by decide,
      Words.toNat_and_not_low (s.regs .rsi) (show 4 ≤ 64 by decide)
        (show (15 : U64) = BitVec.ofNat 64 (2 ^ 4 - 1) from rfl)]
    omega
  have hcli : S.exec s .cli = .ok { s with rflags := s.rflags &&& ~~~0x200 } := by
    rw [System.exec, check_of (by rw [hring]; exact Nat.zero_le _)]
    rfl
  rw [archEnterUser, System.runCode_ok hcli, if_neg (by simp), System.runCode_ok rfl,
    if_neg (by simp), System.runCode_ok rfl, if_neg (by simp)]
  refine ⟨_, rfl, ?_, fun r hr => ?_, rfl, rfl, ?_⟩
  · simp only [Cpu.set_self]
    exact hround
  · simp only [Cpu.set_of_ne _ hr]
  · change (System.logicFlags _ (s.rflags &&& ~~~0x200)).getLsbD 18 = _
    rw [System.logicFlags_getLsbD _ _ (by decide) (by decide), BitVec.getLsbD_and,
      show (~~~(0x200 : U64)).getLsbD 18 = true by decide, Bool.and_true]

/-- **`arch_enter_user` where the stack of the program can be written.** -/
theorem archEnterUser_running (hring : ring s = 0) (hsize : 40 ≤ W.size)
    (htop : (s.regs .rsi).toNat = W.start + W.size) (haligned : (s.regs .rsi).toNat % 16 = 0)
    (hopens : W.Opens S s.mem P) (hmay : ∀ kind, kind ≠ .fetch →
      P ⟨false, kind, s.rflags.getLsbD 18⟩)
    (hcode : ∀ m, W.Within s.mem m → S.descriptor m 0x23 = .ok (segmentDescriptor 0xFA 0x0A))
    (hdata : ∀ m, W.Within s.mem m → S.descriptor m 0x2B = .ok (segmentDescriptor 0xF2 0x0C))
    (hentry : Canonical (s.regs .rdi)) :
    ∃ t, S.runCode archEnterUser s = .running t ∧ t.rip = s.regs .rdi ∧ t.cs = 0x23 ∧ t.ss = 0x2B ∧
      t.regs .rsp = s.regs .rsi ∧ (∀ r, r ≠ .rsp → t.regs r = s.regs r) ∧
      t.rflags.getLsbD 9 = true ∧ W.Within s.mem t.mem := by
  obtain ⟨t₀, hrun₀, hrsp, hregs, hmem, hcs, hac⟩ := archEnterUser_start (S := S) hring haligned
  have hring₀ : ring t₀ = 0 := by rw [ring, hcs]; exact hring
  have hacc : ∀ kind, accessBy t₀ kind = ⟨false, kind, s.rflags.getLsbD 18⟩ := fun kind => by
    rw [accessBy, hring₀, hac]
    rfl
  have h₀ : Entering W S P s t₀ [] := by
    refine ⟨⟨⟨by rw [hrsp]; omega, by rw [hrsp, htop]; exact le_rfl,
      fun j hj => absurd hj (Nat.not_lt_zero j)⟩, hmem ▸ hopens,
      fun kind hkind => hacc kind ▸ hmay kind hkind⟩,
      by rw [hrsp]; exact htop, hregs, hring₀, ?_⟩
    rw [hmem]
    exact Window.Within.refl W _
  -- the frame
  obtain ⟨t₁, hrun₁, h₁⟩ := h₀.push 2 (.pushImm 0x2B) (archEnterUser.drop 4) rfl (by simp)
    (by rw [List.length_nil]; omega)
  obtain ⟨t₂, hrun₂, h₂⟩ := h₁.push 1 (.pushReg .rsi) (archEnterUser.drop 5) rfl (by simp)
    (by simp; omega)
  obtain ⟨t₃, hrun₃, h₃⟩ := h₂.push 1 .pushfq (archEnterUser.drop 6) rfl (by simp)
    (by simp; omega)
  obtain ⟨t₄, hrun₄, h₄⟩ := h₃.orTop 8 (archEnterUser.drop 7) 0x200
  obtain ⟨t₅, hrun₅, h₅⟩ := h₄.push 2 (.pushImm 0x23) (archEnterUser.drop 8) rfl (by simp)
    (by simp; omega)
  obtain ⟨t₆, hrun₆, h₆⟩ := h₅.push 1 (.pushReg .rdi) (archEnterUser.drop 9) rfl (by simp)
    (by simp; omega)
  rw [h₁.regs .rsi (by simp), h₅.regs .rdi (by simp)] at h₆
  have hlast := h₆.iretq (n := 2) (hcode _ h₆.mem) (hdata _ h₆.mem) hentry
  refine ⟨_, ((hrun₀.trans hrun₁).trans (hrun₂.trans hrun₃)).trans
    (hrun₄.trans (hrun₅.trans (hrun₆.trans hlast))),
    rfl, rfl, rfl, t₆.set_self .rsp _, fun r hr => (t₆.set_of_ne hr _).trans (h₆.regs r hr),
    ?_, h₆.mem⟩
  change ((t₂.rflags &&& ~~~0x30000) ||| 0x200 : U64).getLsbD 9 = true
  rw [BitVec.getLsbD_or, show (0x200 : U64).getLsbD 9 = true by decide, Bool.or_true]

/-- **`arch_enter_user` where it cannot**: neither can the frames of the exceptions be pushed. -/
theorem archEnterUser_shutdown (hring : ring s = 0) (haligned : (s.regs .rsi).toNat % 16 = 0)
    (hplace : 8 ≤ (s.regs .rsi).toNat ∧ (s.regs .rsi).toNat < 2 ^ 47)
    (hnone : S.mmu s.mem ⟨false, .write, s.rflags.getLsbD 18⟩ (s.regs .rsi - 8) = none)
    (hgates : ∀ v, S.LeadsInside s.mem (S.idt v) ∧ (S.idt v).ist = 0) :
    S.runCode archEnterUser s = .shutdown := by
  obtain ⟨t, hrun, hrsp, -, hmem, hcs, hac⟩ := archEnterUser_start (S := S) hring haligned
  have hring₀ : ring t = 0 := by rw [ring, hcs]; exact hring
  -- a push with the same stack pointer, by ring 0
  have hpush : ∀ (u : Cpu) (v : U64), u.regs .rsp = s.regs .rsi → u.mem = s.mem → ring u = 0 →
      u.rflags.getLsbD 18 = s.rflags.getLsbD 18 → S.push u v = .error 14 := by
    intro u v hu hm hr ha
    have hacc : accessBy u .write = ⟨false, .write, s.rflags.getLsbD 18⟩ := by
      rw [accessBy, hr, ha]
      rfl
    rw [System.push, hu, hm, hacc, System.store64_fault ⟨Or.inl ?_, Or.inl ?_⟩ hnone]
    · rfl
    · bv_omega
    · bv_omega
  have hdeliver : ∀ v, S.deliver t false v = .error 14 := by
    intro v
    obtain ⟨hlead, hist⟩ := hgates v
    rw [← hmem] at hlead
    have hstack : S.handlerStack t (S.idt v) 0 = .ok (t.regs .rsp) := by
      rw [System.handlerStack, if_neg (not_not.2 hist), if_neg (by rw [hring₀]; decide)]
    rw [hlead.deliver_eq (by simp) hstack, List.cons_append, System.pushes_fault (w := 14)]
    · rfl
    · refine hpush _ _ ?_ hmem ?_ hac
      · change ((t.set .rsp (t.regs .rsp &&& ~~~15)).regs .rsp) = _
        rw [Cpu.set_self, hrsp]
        refine BitVec.eq_of_toNat_eq ?_
        rw [Words.toNat_and_not_low (s.regs .rsi) (show 4 ≤ 64 by decide)
          (show (15 : U64) = BitVec.ofNat 64 (2 ^ 4 - 1) from rfl)]
        omega
      · change (BitVec.ofNat 64 ((S.idt v).selector.toNat / 4 * 4 + 0)).toNat % 4 = 0
        rw [BitVec.toNat_ofNat]
        omega
  have hfirst : S.exec t (.pushImm 0x2B) = .error 14 := hpush t 0x2B hrsp hmem hring₀ hac
  rw [hrun, show archEnterUser.drop 3 = (2, .pushImm 0x2B) :: archEnterUser.drop 4 from rfl,
    System.runCode_error hfirst]
  exact System.raise_shutdown (hdeliver 14) (hdeliver 8)

end Window

/-! ### On the stack of a process -/

/-- The machine before `process_create`: the kernel finds its descriptor tables and its stack at
their own addresses, in pages that are neither free nor page tables, and `gdt_init` has been run. -/
structure KernelUp (L : GdtLayout) (stub : ℕ → U64) (idt : U8 → IdtEntry) (calls : List GateCall)
    (error : U8 → U64) (S : System) (K : Kernel) (a : PageSets) : Prop where
  kept : KernelKept K a
  low : ∀ x, L.Area x → Mm.access K.phys.mem (tableFromEntry K.cr3) (BitVec.ofNat 64 x) =
    some ⟨BitVec.ofNat 64 x, true, false, false⟩
  used : ∀ x, L.Area x → x / 4096 ∉ a.free
  apart : ∀ x, L.Area x → ∀ p f, HasTable allTables K.kernelTable K.phys.mem p f →
    x / 4096 ≠ f / 4096
  ready : GdtReady L S K.phys.mem (BitVec.ofNat 64 L.stackTop)
  gates : ∀ v, S.idt v = (gatesAfter stub idt calls v).gate
  codes : ∀ v, S.code v = if v.toNat ∈ errorVectors then some (error v) else none

section Process

variable {L : GdtLayout} {stub : ℕ → U64} {idt : U8 → IdtEntry} {calls : List GateCall}
    {error : U8 → U64}
  {S : System} {K K' : Kernel} {a : PageSets} {image pml4 : U64} {c : Controls} {m : Mem}

/-- The kernel's loads and stores where the tables map an address to itself. -/
theorem paging_kernel {x : ℕ} (hx : x < 2 ^ 30) {acc : Protection.Access} (hacc : KernelData acc)
    {cr3 : U64} (h : Mm.access m (tableFromEntry cr3) (BitVec.ofNat 64 x) =
      some ⟨BitVec.ofNat 64 x, true, false, false⟩) :
    paging c cr3 m acc (BitVec.ofNat 64 x) = some x := by
  have hvalue : (BitVec.ofNat 64 x).toNat = x := by
    rw [BitVec.toNat_ofNat]
    omega
  refine paging_eq_some.2 ⟨Or.inl (by omega), _, h, ?_, hvalue⟩
  obtain ⟨user, kind, ac⟩ := acc
  obtain ⟨rfl, hkind⟩ := hacc
  cases kind with
  | read => simp [grants]
  | write => simp [grants]
  | fetch => exact absurd rfl hkind

/-- The kernel's data in the space of a process, whatever the program has written. -/
theorem KernelUp.flat (hup : KernelUp L stub idt calls error S K a) (h : Prepared K a image pml4 K')
    (hm : ∀ x, ¬ InFrames K'.phys.mem pml4 x → m x = K'.phys.mem x) :
    Flat { S with mmu := paging c pml4 } m L.Area := by
  obtain ⟨a', calls', hb⟩ := h.built
  refine ⟨fun x hx => L.area_low hx, fun m' hm' acc hacc x hx => ?_⟩
  have hlow := L.area_low hx
  have hvalue : (BitVec.ofNat 64 x).toNat = x := by
    rw [BitVec.toNat_ofNat]
    omega
  have hindex : pml4Index (BitVec.ofNat 64 x) = 0 := by
    rw [pml4Index, toNat_index, hvalue]
    omega
  -- no table has changed since the process was made, and its first slot is the kernel's
  have htables : ∀ p f, HasTable allTables pml4.toNat K'.phys.mem p f →
      ∀ y, y / 4096 = f / 4096 → m' y = K'.phys.mem y := by
    intro p f hf y hy
    refine (hm' y fun hin => ?_).trans (hm y fun hin => hb.table_ne hup.kept.taken hf hin hy)
    exact hb.table_ne_used hup.kept.taken hf (hup.used y hin) (hup.apart y hin) hy
  have haccess : Mm.access m' pml4 (BitVec.ofNat 64 x) =
      some ⟨BitVec.ofNat 64 x, true, false, false⟩ := by
    have hkernel := hup.low x hx
    rw [access_congr hb.space.tree.aligned htables, Mm.access,
      hb.trail_kernel hup.kept.taken hindex]
    rwa [Mm.access] at hkernel
  exact paging_kernel hlow hacc (by rw [h.tableFromEntry_pml4]; exact haccess)

/-- Likewise the descriptor tables. -/
theorem KernelUp.gatesReady (hup : KernelUp L stub idt calls error S K a)
    (h : Prepared K a image pml4 K') (hm : ∀ x, ¬ InFrames K'.phys.mem pml4 x →
      m x = K'.phys.mem x) :
    GatesReady L stub idt calls error { S with mmu := paging c pml4 } m := by
  obtain ⟨a', calls', hb⟩ := h.built
  have hsame : ∀ x, L.Area x → m x = K.phys.mem x := fun x hx =>
    (hm x fun hin => hup.used x hx (hb.inFrames_free hin)).trans (hb.mem x (hup.used x hx))
  have hready : GdtReady L S m (BitVec.ofNat 64 L.stackTop) :=
    hup.ready.congr fun x hx => hsame x (hx.imp_right Or.inl)
  exact ⟨hup.flat h hm, ⟨hready.gdtBase, hready.gdtLimit, hready.tssBase, hready.tssLimit,
    hready.segments, hready.rsp0⟩, hup.gates, hup.codes⟩

/-- What it takes: the bit that forbids execution is one the processor knows, and ring 0 may write
to pages of ring 3. -/
def CanEnter (c : Controls) (rflags : U64) : Prop :=
  c.nxe = true ∧ (c.smap = true → rflags.getLsbD 18 = true)

/-- The last page of the stack, for ring 0. -/
theorem stack_window (h : Prepared K a image pml4 K') (hk : KernelKept K a) : ∃ f,
    (∀ m, (Window.mk 0x80000FF000 f 4096).Within K'.phys.mem m →
      ∀ x, ¬ InFrames K'.phys.mem pml4 x → m x = K'.phys.mem x) ∧
    (c.nxe = true →
      (Window.mk 0x80000FF000 f 4096).Opens { S with mmu := paging c pml4 } K'.phys.mem fun acc =>
        acc.user = false ∧ acc.kind ≠ .fetch ∧ (c.smap = true → acc.ac = true)) ∧
    ∀ ac, ¬ (c.nxe = true ∧ (c.smap = true → ac = true)) →
      paging c pml4 K'.phys.mem ⟨false, .write, ac⟩ (userStackTop - 8) = none := by
  have hpage : UserPageIs K'.phys.mem pml4 0x80000FF000 true true :=
    h.userPageIs_iff.2 (Or.inl ⟨⟨by decide, by decide⟩, rfl, rfl⟩)
  obtain ⟨f, hfit, hframes, haccess⟩ := h.access_page hpage (by decide)
  have hwithin : ∀ m, (Window.mk 0x80000FF000 f 4096).Within K'.phys.mem m →
      ∀ x, ¬ InFrames K'.phys.mem pml4 x → m x = K'.phys.mem x := by
    intro m hm x hx
    refine hm x (Classical.not_not.1 fun hno => hx ?_)
    obtain ⟨k, rfl⟩ :=
      Nat.exists_eq_add_of_le (show f ≤
        x by by_contra hlt; exact hno (Or.inl (show x < f by omega)))
    exact hframes k (by by_contra hlt; exact hno (Or.inr (show f + 4096 ≤ f + k by omega)))
  refine ⟨f, hwithin, fun hnxe =>
    ⟨show 0x80000FF000 + 4096 ≤ 2 ^ 47 by decide, fun m hm acc hacc k hk' => ?_⟩, fun ac hno => ?_⟩
  · obtain ⟨user, kind, ac⟩ := acc
    obtain ⟨rfl, hkind, hac⟩ := hacc
    have hk' : k < 4096 := hk'
    change paging c pml4 m _ _ = _
    rw [paging_frames_congr h hk (hwithin m hm)]
    refine paging_eq_some.2 ⟨Or.inl ?_, _,
      by rw [h.tableFromEntry_pml4]; exact haccess k hk', ?_, ?_⟩
    · change (BitVec.ofNat 64 (0x80000FF000 + k)).toNat < 2 ^ 47
      rw [BitVec.toNat_ofNat]
      omega
    · have hsmap : (c.smap && !ac) = false := by
        rcases Bool.eq_false_or_eq_true c.smap with hs | hs
        · rw [show ac = true from hac hs, Bool.not_true, Bool.and_false]
        · rw [hs, Bool.false_and]
      cases kind with
      | read => simp [grants, hnxe, hsmap]
      | write => simp [grants, hnxe, hsmap]
      | fetch => exact absurd rfl hkind
    · rw [BitVec.toNat_ofNat]
      change (f + k) % 2 ^ 64 = f + k
      omega
  · refine Option.eq_none_iff_forall_ne_some.2 fun pa hpa => hno ?_
    obtain ⟨-, rights, hrights, hgrants, -⟩ := paging_eq_some.1 hpa
    rw [h.tableFromEntry_pml4,
      show userStackTop - 8 = BitVec.ofNat 64 ((0x80000FF000 : U64).toNat + 4088) by decide,
      haccess 4088 (by decide)] at hrights
    obtain rfl := Option.some.inj hrights
    obtain ⟨nxe, wp, smep, smap⟩ := c
    cases nxe <;> cases smap <;> cases ac <;> simp_all [grants]

/-- `arch_enter_user` in the space of a prepared process. -/
theorem archEnterUser_prepared (hup : KernelUp L stub idt calls error S K a)
    (h : Prepared K a image pml4 K') {s : Cpu} (hring : ring s = 0) (hmem : s.mem = K'.phys.mem)
    (hrsi : s.regs .rsi = userStackTop) (hentry : Canonical (s.regs .rdi)) :
    (CanEnter c s.rflags → ∃ t,
      { S with mmu := paging c pml4 }.runCode archEnterUser s = .running t ∧
      t.rip = s.regs .rdi ∧ t.cs = 0x23 ∧ t.ss = 0x2B ∧ t.regs .rsp = userStackTop ∧
      (∀ r, r ≠ .rsp → t.regs r = s.regs r) ∧ t.rflags.getLsbD 9 = true ∧
      InRing3 L stub idt calls error { S with mmu := paging c pml4 } t) ∧
    (¬ CanEnter c s.rflags → { S with mmu := paging c pml4 }.runCode archEnterUser s =
      .shutdown) := by
  obtain ⟨f, hwithin, hopens, hnone⟩ := stack_window (S := S) (c := c) h hup.kept
  have haligned : (s.regs .rsi).toNat % 16 = 0 := by
    rw [hrsi, toNat_userStackTop]
  constructor
  · rintro ⟨hnxe, hsmap⟩
    have hready := fun m hm => hup.gatesReady (c := c) h (hwithin m hm)
    obtain ⟨t, hrun, hrip, hcs, hss, hrsp, hregs, hif, hmem'⟩ := archEnterUser_running
      (S := { S with mmu := paging c pml4 }) hring (show 40 ≤ 4096 by decide)
      (show (s.regs .rsi).toNat = 0x80000FF000 + 4096 by rw [hrsi, toNat_userStackTop]) haligned
      (hmem ▸ hopens hnxe) (fun kind hkind => ⟨rfl, hkind, hsmap⟩)
      (fun m hm => (hready m (hmem ▸ hm)).ready.descriptor (hready m (hmem ▸ hm)).flat
        (by decide) rfl)
      (fun m hm => (hready m (hmem ▸ hm)).ready.descriptor (hready m (hmem ▸ hm)).flat (by decide)
        rfl) hentry
    refine ⟨t, hrun, hrip, hcs, hss, hrsp.trans hrsi, hregs, hif, hready t.mem (hmem ▸ hmem'), ?_⟩
    rw [ring, hcs]
    decide
  · intro hno
    refine archEnterUser_shutdown hring haligned (by rw [hrsi, toNat_userStackTop]; decide) ?_
      fun v => ?_
    · rw [hmem, hrsi]
      exact hnone _ hno
    · have hready := hup.gatesReady (c := c) h (m := s.mem) (fun x _ => by rw [hmem])
      refine ⟨hready.leadsInside v, ?_⟩
      rw [hready.gate]

end Process

section Result

variable {L : GdtLayout} {stub : ℕ → U64} {idt : U8 → IdtEntry} {calls : List GateCall}
    {error : U8 → U64}
  {S : System} {K K' K₃ : Kernel} {a : PageSets} {image pml4 : U64} {i : Slot}
    {program : ProcessImage}

/-- **Into ring 3.**  The end of `kmain` for a prepared process: it enters the program, with
interrupts on, on the stack of the program, and with every event handled from then on; or, where the
stack of the program cannot be written by ring 0, the processor shuts down. -/
theorem enterProcess_prepared (hup : KernelUp L stub idt calls error S K a)
    (h : Prepared K a image pml4 K') (hne : pml4 ≠ 0) (hphys : K₃.phys = K'.phys)
    (hpml4 : (K₃.processes i).pml4Physical = pml4)
    (hentry : program.entryPoint.toNat < 2 ^ 40) (hstack : program.userStackTop = userStackTop)
    (c : Controls) (s : Cpu) (hring : ring s = 0) :
    (CanEnter c s.rflags → ∃ t, enterProcess c S K₃ i program s = some (.running t) ∧
      t.rip = program.entryPoint ∧ t.cs = 0x23 ∧ t.ss = 0x2B ∧ t.regs .rsp = userStackTop ∧
      t.rflags.getLsbD 9 = true ∧
      InRing3 L stub idt calls error { S with mmu := paging c pml4 } t) ∧
    (¬ CanEnter c s.rflags → enterProcess c S K₃ i program s = some .shutdown) := by
  have hactivate :
      processActivate (K₃.setProcess i { K₃.processes i with state := .running }) (some i) =
      (0, { K₃.setProcess i { K₃.processes i with state := .running } with cr3 := pml4 }) := by
    rw [processActivate]
    dsimp only
    rw [setProcess_self, if_neg (by simp), addressSpaceActivate, hpml4, if_neg hne]
  have henter : enterProcess c S K₃ i program s =
      some ({ S with mmu := paging c pml4 }.runCode archEnterUser
        (atCall s program K'.phys.mem)) := by
    rw [enterProcess, hactivate, ← hphys]
    rfl
  have hresult :=
    archEnterUser_prepared (c := c) hup h (s := atCall s program K'.phys.mem) hring rfl
      ((atCall_rsi ..).trans hstack) (by rw [atCall_rdi]; exact Or.inl (hentry.trans (by decide)))
  rw [henter]
  refine ⟨fun hcan => ?_, fun hno => congrArg some (hresult.2 hno)⟩
  obtain ⟨t, hrun, hrip, hcs, hss, hrsp, -, hif, hring3⟩ := hresult.1 hcan
  exact ⟨t, congrArg some hrun, hrip.trans (atCall_rdi ..), hcs, hss, hrsp, hif, hring3⟩

end Result

end SuiraBox.Arch
