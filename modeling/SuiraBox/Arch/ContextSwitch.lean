/-
# Switching between tasks

`kernel/arch/x86_64/context.S` (`sb_context_switch`) and the structure
`sb_task_context_t` of `kernel/scheduler.h`: eight quadwords, `r15`, `r14`, `r13`,
`r12`, `rbx`, `rbp`, `rip` and `rsp`.

The function stores the callee-saved registers, the return address and the stack
pointer behind it in the old context, loads them from the new one, and pushes the
return address it has loaded just to return to it.  The push goes to the quadword
below the new stack pointer, where the call of the resumed task had put it.

Tasks run one after the other.  Between two switches the running task may do anything
but write to the stack or the context of another one.
-/

import SuiraBox.Library.X64
import SuiraBox.Mm.Pmm
import Mathlib.Logic.Relation

namespace SuiraBox.Arch

open ByteMem Mm X64

/-! ### The function -/

/-- The registers at the beginning of `sb_task_context_t`, in order. -/
def contextRegs : List Reg := [.r15, .r14, .r13, .r12, .rbx, .rbp]

/-- The first half of `sb_context_switch`: save into `old_context`. -/
def saveContext : List Instr :=
  storeRegs .rdi 0 contextRegs ++
    [.load 0 .rsp .rax, .store .rax 48 .rdi, .lea 8 .rsp .rax, .store .rax 56 .rdi]

/-- The second half: restore from `new_context` and return. -/
def restoreContext : List Instr :=
  loadRegs .rsi 0 contextRegs ++ [.load 56 .rsi .rsp, .load 48 .rsi .rax, .push .rax, .ret]

/-- `sb_context_switch`. -/
def sbContextSwitch : List Instr := saveContext ++ restoreContext

/-- What is saved of a processor that has entered the function. -/
def contextWords (s : Cpu) : List U64 := contextRegs.map s.regs ++ [s.top, s.regs .rsp + 8]

variable (callee : Cpu → Cpu) {s : Cpu}

/-- Saving writes the context and changes no register but `rax`. -/
theorem saveContext_spec (hfit : (s.regs .rdi).toNat + 64 ≤ 2 ^ 64)
    (hapart : (s.regs .rsp).toNat + 8 ≤ (s.regs .rdi).toNat ∨
      (s.regs .rdi).toNat + 64 ≤ (s.regs .rsp).toNat) :
    (execAll callee s saveContext).mem = writeWords s.mem (s.regs .rdi).toNat (contextWords s) ∧
      ∀ r, r ≠ .rax → (execAll callee s saveContext).regs r = s.regs r := by
  have h₄₈ : (s.regs .rdi + 48).toNat = (s.regs .rdi).toNat + 48 := by bv_omega
  have h₅₆ : (s.regs .rdi + 56).toNat = (s.regs .rdi).toNat + 56 := by bv_omega
  have htop : read64 (writeWords s.mem (s.regs .rdi).toNat (contextRegs.map s.regs))
      (s.regs .rsp).toNat = s.top := by
    refine read64_congr fun x h₁ h₂ => writeWords_of_outside _ ?_
    simp only [contextRegs, List.length_map, List.length_cons, List.length_nil]
    omega
  rw [saveContext, execAll_append, execAll_storeRegs _ _ _ _ _ (by
    simp only [contextRegs, List.length_cons, List.length_nil]
    omega)]
  constructor
  · change write64 (write64 (writeWords s.mem (s.regs .rdi).toNat (contextRegs.map s.regs))
      (s.regs .rdi + 48).toNat (read64
        (writeWords s.mem (s.regs .rdi).toNat (contextRegs.map s.regs))
        (s.regs .rsp + 0).toNat)) (s.regs .rdi + 56).toNat (s.regs .rsp + 8) = _
    rw [show s.regs .rsp + 0 = s.regs .rsp from BitVec.add_zero _, htop, h₄₈, h₅₆, contextWords,
      writeWords_append]
    rfl
  · intro r hr
    simp [execAll, exec, Cpu.set, hr]

/-- The word of a context at an offset. -/
def contextWord (m : Mem) (context : U64) (j : ℕ) : U64 := read64 m (context.toNat + 8 * j)

/-- Restoring loads the context, and writes its return address below its stack pointer. -/
theorem restoreContext_spec (hfit : (s.regs .rsi).toNat + 64 ≤ 2 ^ 64) :
    (execAll callee s restoreContext).rip = contextWord s.mem (s.regs .rsi) 6 ∧
    (execAll callee s restoreContext).regs .rsp = contextWord s.mem (s.regs .rsi) 7 ∧
    (∀ j r, contextRegs[j]? = some r →
      (execAll callee s restoreContext).regs r = contextWord s.mem (s.regs .rsi) j) ∧
    (execAll callee s restoreContext).mem =
      write64 s.mem (contextWord s.mem (s.regs .rsi) 7 - 8).toNat
      (contextWord s.mem (s.regs .rsi) 6) := by
  have h₄₈ : (s.regs .rsi + 48).toNat = (s.regs .rsi).toNat + 8 * 6 := by bv_omega
  have h₅₆ : (s.regs .rsi + 56).toNat = (s.regs .rsi).toNat + 8 * 7 := by bv_omega
  obtain ⟨hload, hother, hmem⟩ :=
    execAll_loadRegs callee s .rsi 0 contextRegs (by decide) (by decide)
    (by simp only [contextRegs, List.length_cons, List.length_nil]; omega)
  have hrsi := hother .rsi (by decide)
  rw [restoreContext, execAll_append]
  generalize execAll callee s (loadRegs .rsi 0 contextRegs) = t at *
  have hrip : read64 t.mem (t.regs .rsi + 48).toNat = contextWord s.mem (s.regs .rsi) 6 := by
    rw [hrsi, hmem, h₄₈, contextWord]
  have hrsp : read64 t.mem (t.regs .rsi + 56).toNat = contextWord s.mem (s.regs .rsi) 7 := by
    rw [hrsi, hmem, h₅₆, contextWord]
  generalize contextWord s.mem (s.regs .rsi) 6 = rip at *
  generalize contextWord s.mem (s.regs .rsi) 7 = rsp at *
  have hkeep : (t.set .rsp rsp).regs .rsi = t.regs .rsi := Cpu.set_of_ne _ (by decide) _
  have hlast : execAll callee t [.load 56 .rsi .rsp, .load 48 .rsi .rax, .push .rax, .ret] =
      { (((t.set .rsp rsp).set .rax rip).push rip).drop with
        rip := (((t.set .rsp rsp).set .rax rip).push rip).top } := by
    simp only [execAll, List.foldl_cons, List.foldl_nil, exec, hrsp, hkeep, Cpu.set_mem, hrip,
      Cpu.set_self]
  have hset : ((t.set .rsp rsp).set .rax rip).regs .rsp = rsp := by
    rw [Cpu.set_of_ne _ (by decide), Cpu.set_self]
  have hne : ∀ q ∈ contextRegs, q ≠ .rsp ∧ q ≠ .rax := by decide
  have htop : (((t.set .rsp rsp).set .rax rip).push rip).top = rip := Cpu.push_top _ _
  have hursp : (((t.set .rsp rsp).set .rax rip).push rip).regs .rsp = rsp - 8 := by
    rw [Cpu.push_rsp, hset]
  have humem : (((t.set .rsp rsp).set .rax rip).push rip).mem =
      write64 t.mem (rsp - 8).toNat rip := by
    rw [← hset]
    rfl
  have huregs : ∀ r, r ≠ .rsp → r ≠ .rax →
      (((t.set .rsp rsp).set .rax rip).push rip).regs r = t.regs r := by
    intro r hr₁ hr₂
    rw [Cpu.push_of_ne _ hr₁, Cpu.set_of_ne _ hr₂, Cpu.set_of_ne _ hr₁]
  rw [hlast]
  generalize ((t.set .rsp rsp).set .rax rip).push rip = u at *
  refine ⟨htop, ?_, fun j r hr => ?_, ?_⟩
  · refine (Cpu.drop_rsp u).trans ?_
    rw [hursp, BitVec.sub_add_cancel]
  · obtain ⟨hr₁, hr₂⟩ := hne r (List.mem_of_getElem? hr)
    refine (Cpu.drop_of_ne u hr₁).trans ?_
    rw [huregs r hr₁ hr₂, hload j r hr, contextWord, Nat.add_zero]
  · exact humem.trans (by rw [hmem])

/-! ### Tasks -/

/-- Tasks with a context and a stack each, all apart from one another. -/
structure Layout (ι : Type*) where
  context : ι → U64
  stackLow : ι → ℕ
  stackHigh : ι → ℕ
  context_fits : ∀ i, (context i).toNat + 64 ≤ 2 ^ 64
  stack_fits : ∀ i, stackHigh i ≤ 2 ^ 64
  contexts_apart : ∀ i j, i ≠ j → (context i).toNat + 64 ≤ (context j).toNat ∨
    (context j).toNat + 64 ≤ (context i).toNat
  stacks_apart : ∀ i j, i ≠ j → stackHigh i ≤ stackLow j ∨ stackHigh j ≤ stackLow i
  apart : ∀ i j, (context i).toNat + 64 ≤ stackLow j ∨ stackHigh j ≤ (context i).toNat

variable {ι : Type*} {L : Layout ι} {i j k : ι} {a : ℕ}

namespace Layout

/-- An address in the context of a task. -/
def InContext (L : Layout ι) (i : ι) (a : ℕ) : Prop :=
  (L.context i).toNat ≤ a ∧ a < (L.context i).toNat + 64

/-- An address in the stack of a task. -/
def InStack (L : Layout ι) (i : ι) (a : ℕ) : Prop := L.stackLow i ≤ a ∧ a < L.stackHigh i

/-- The quadword below a stack pointer is in the stack of a task. -/
def OnStack (L : Layout ι) (i : ι) (rsp : U64) : Prop :=
  L.stackLow i + 8 ≤ rsp.toNat ∧ rsp.toNat ≤ L.stackHigh i

end Layout

/-- A task at its call of `sb_context_switch`: the processor before the call, and the
address behind it. -/
structure Snapshot where
  cpu : Cpu
  ret : U64

/-- The processor, the task that it runs, and the last call of every other task that has
made one. -/
structure Tasks (ι : Type*) where
  cpu : Cpu
  current : ι
  suspended : ι → Option Snapshot

/-- `call sb_context_switch`, up to the return into the new task. -/
def Tasks.switchTo [DecidableEq ι] (s : Tasks ι) (next : ι) (ret : U64) : Tasks ι where
  cpu := execAll id (s.cpu.push ret) sbContextSwitch
  current := next
  suspended := Function.update s.suspended s.current (some ⟨s.cpu, ret⟩)

/-- The running task has the arguments for a switch to `next` in its registers, and room
for the return address on its stack. -/
structure CanSwitch (L : Layout ι) (s : Tasks ι) (next : ι) : Prop where
  rdi : s.cpu.regs .rdi = L.context s.current
  rsi : s.cpu.regs .rsi = L.context next
  rsp : L.OnStack s.current (s.cpu.regs .rsp)

/-- What happens: the running task does anything that leaves the contexts and the stacks of
the other tasks alone, or it switches. -/
inductive TaskStep [DecidableEq ι] (L : Layout ι) : Tasks ι → Tasks ι → Prop
  | work {s : Tasks ι} (cpu : Cpu)
      (h : ∀ k, k ≠ s.current → ∀ a, L.InContext k a ∨ L.InStack k a → cpu.mem a = s.cpu.mem a) :
      TaskStep L s { s with cpu }
  | switch {s : Tasks ι} {next : ι} (h : CanSwitch L s next) (ret : U64) :
      TaskStep L s (s.switchTo next ret)

/-- No task has called yet; the contexts that the others start from have their stack pointer
in the stack. -/
structure TasksStart (L : Layout ι) (s : Tasks ι) : Prop where
  fresh : ∀ k, s.suspended k = none
  rsp : ∀ k, k ≠ s.current → L.OnStack k (contextWord s.cpu.mem (L.context k) 7)

/-! ### What a suspended task keeps -/

/-- What `sb_task_context_t` holds of a task that has called. -/
def Snapshot.words (snap : Snapshot) : List U64 :=
  contextRegs.map snap.cpu.regs ++ [snap.ret, snap.cpu.regs .rsp]

/-- The context of a task has its stack pointer in the stack; if the task has called, it is
the context of its call, and the stack from there on is that of the call. -/
structure Held (L : Layout ι) (m : Mem) (k : ι) (last : Option Snapshot) : Prop where
  rsp : L.OnStack k (contextWord m (L.context k) 7)
  words : ∀ snap, last = some snap → ∀ j w, snap.words[j]? = some w →
    contextWord m (L.context k) j = w
  stack : ∀ snap, last = some snap → ∀ a, (snap.cpu.regs .rsp).toNat ≤ a → a < L.stackHigh k →
    m a = snap.cpu.mem a

/-- The stack pointer of a snapshot is in its context. -/
theorem Held.rsp_eq {m : Mem} {snap : Snapshot} (h : Held L m k (some snap)) :
    contextWord m (L.context k) 7 = snap.cpu.regs .rsp := h.words snap rfl 7 _ rfl

theorem contextWord_congr {m m' : Mem} (h : ∀ a, L.InContext k a → m' a = m a) {j : ℕ}
    (hj : j < 8) : contextWord m' (L.context k) j = contextWord m (L.context k) j :=
  read64_congr fun a h₁ h₂ => h a ⟨by omega, by omega⟩

/-- A task is held as long as nobody writes to its context or to the used part of its
stack. -/
theorem Held.congr {m m' : Mem} {last : Option Snapshot} (h : Held L m k last)
    (hcontext : ∀ a, L.InContext k a → m' a = m a)
    (hstack : ∀ a, (contextWord m (L.context k) 7).toNat ≤ a → a < L.stackHigh k → m' a = m a) :
    Held L m' k last := by
  refine ⟨?_, fun snap hsnap j w hw => ?_, fun snap hsnap a h₁ h₂ => ?_⟩
  · rw [contextWord_congr hcontext (by decide)]
    exact h.rsp
  · have hj : j < 8 := by
      have hlt := (List.getElem?_eq_some_iff.1 hw).1
      simpa [Snapshot.words, contextRegs] using hlt
    rw [contextWord_congr hcontext hj]
    exact h.words snap hsnap j w hw
  · subst hsnap
    rw [hstack a (by rw [h.rsp_eq]; exact h₁) h₂]
    exact h.stack snap rfl a h₁ h₂

/-- The state in which a run of tasks is found: every task but the running one is held. -/
def AllHeld (L : Layout ι) (s : Tasks ι) : Prop :=
  ∀ k, k ≠ s.current → Held L s.cpu.mem k (s.suspended k)

/-- The memory when the running task has saved its context. -/
def savedMem (s : Tasks ι) (ret : U64) : Mem :=
  writeWords (s.cpu.push ret).mem (s.cpu.regs .rdi).toNat (Snapshot.words ⟨s.cpu, ret⟩)

section Switch

variable {t : Tasks ι} {next : ι} (hcall : CanSwitch L t next) (ret : U64)

include hcall

/-- Saving writes to the context and the free part of the stack of the running task. -/
theorem savedMem_of_outside (hcontext : ¬ L.InContext t.current a)
    (hstack : a < L.stackLow t.current ∨ (t.cpu.regs .rsp).toNat ≤ a) :
    savedMem t ret a = t.cpu.mem a := by
  have hrsp := hcall.rsp
  have hout : a < (t.cpu.regs .rdi).toNat ∨ (t.cpu.regs .rdi).toNat + 64 ≤ a := by
    rw [hcall.rdi]
    unfold Layout.InContext at hcontext
    omega
  unfold Layout.OnStack at hrsp
  rw [savedMem, writeWords_of_outside _ (by simpa [Snapshot.words, contextRegs] using hout)]
  exact write64_of_outside _ _ (by bv_omega)

/-- **What a switch does**, in terms of the memory after saving. -/
theorem switchTo_spec [DecidableEq ι] :
    (t.switchTo next ret).cpu.rip = contextWord (savedMem t ret) (L.context next) 6 ∧
    (t.switchTo next ret).cpu.regs .rsp = contextWord (savedMem t ret) (L.context next) 7 ∧
    (∀ j r, contextRegs[j]? = some r →
      (t.switchTo next ret).cpu.regs r = contextWord (savedMem t ret) (L.context next) j) ∧
    (t.switchTo next ret).cpu.mem = write64 (savedMem t ret)
      (contextWord (savedMem t ret) (L.context next) 7 - 8).toNat
      (contextWord (savedMem t ret) (L.context next) 6) := by
  obtain ⟨hrdi, hrsi, hlow, hhigh⟩ := hcall
  have hfits := L.context_fits t.current
  have hapart := L.apart t.current t.current
  have hpush : ∀ r, r ≠ .rsp → (t.cpu.push ret).regs r = t.cpu.regs r :=
    fun r hr => Cpu.push_of_ne _ hr _
  have hrsp : (t.cpu.push ret).regs .rsp = t.cpu.regs .rsp - 8 := Cpu.push_rsp ..
  have hwords : contextWords (t.cpu.push ret) = Snapshot.words ⟨t.cpu, ret⟩ := by
    have hregs : contextRegs.map (t.cpu.push ret).regs = contextRegs.map t.cpu.regs :=
      List.map_congr_left fun r hr => hpush r (by rintro rfl; exact absurd hr (by decide))
    rw [contextWords, Snapshot.words, hregs, Cpu.push_top, hrsp, BitVec.sub_add_cancel]
  obtain ⟨hmem, hregs⟩ := saveContext_spec id (s := t.cpu.push ret)
    (by rw [hpush .rdi (by decide), hrdi]; exact hfits)
    (by rw [hpush .rdi (by decide), hrsp, hrdi]; bv_omega)
  rw [hwords, hpush .rdi (by decide), ← savedMem] at hmem
  have hrsi' : (execAll id (t.cpu.push ret) saveContext).regs .rsi = L.context next := by
    rw [hregs _ (by decide), hpush _ (by decide), hrsi]
  obtain hspec := restoreContext_spec id (s := execAll id (t.cpu.push ret) saveContext)
    (by rw [hrsi']; exact L.context_fits next)
  rw [hmem, hrsi', ← execAll_append] at hspec
  exact hspec

/-- After saving, every task is held, the one that has just called among them. -/
theorem held_savedMem [DecidableEq ι] (hall : AllHeld L t) (k : ι) :
    Held L (savedMem t ret) k ((t.switchTo next ret).suspended k) := by
  have hrsp := hcall.rsp
  rcases eq_or_ne k t.current with rfl | hk
  · have hword : ∀ j w, (Snapshot.words ⟨t.cpu, ret⟩)[j]? = some w →
        contextWord (savedMem t ret) (L.context t.current) j = w := by
      intro j w hw
      rw [contextWord, savedMem, hcall.rdi]
      exact read64_writeWords _ _ hw
    have hlast : (t.switchTo next ret).suspended t.current = some ⟨t.cpu, ret⟩ :=
      Function.update_self ..
    rw [hlast]
    refine ⟨?_, fun snap hsnap => ?_, fun snap hsnap a h₁ h₂ => ?_⟩
    · rw [hword 7 _ rfl]
      exact hrsp
    · obtain rfl := Option.some.inj hsnap
      exact hword
    · obtain rfl := Option.some.inj hsnap
      have hapart := L.apart t.current t.current
      have hlow : L.stackLow t.current + 8 ≤ _ := hrsp.1
      have h₁ : (t.cpu.regs .rsp).toNat ≤ a := h₁
      refine savedMem_of_outside hcall ret (fun hin => ?_) (Or.inr h₁)
      unfold Layout.InContext at hin
      omega
  · have hlast : (t.switchTo next ret).suspended k = t.suspended k := Function.update_of_ne hk ..
    have hheld := hall k hk
    rw [hlast]
    refine hheld.congr (fun a ha => ?_) fun a h₁ h₂ => ?_
    · have h₁ := L.contexts_apart k t.current hk
      have h₂ := L.apart k t.current
      unfold Layout.InContext at ha
      unfold Layout.OnStack at hrsp
      refine savedMem_of_outside hcall ret ?_ (by omega)
      unfold Layout.InContext
      omega
    · have h₃ := L.apart t.current k
      have h₄ := L.stacks_apart k t.current hk
      have hlow : L.stackLow k + 8 ≤ _ := hheld.rsp.1
      unfold Layout.OnStack at hrsp
      refine savedMem_of_outside hcall ret ?_ (by omega)
      unfold Layout.InContext
      omega

/-- The push of the resumed task goes below its stack pointer. -/
theorem switchTo_mem [DecidableEq ι] (hall : AllHeld L t)
    (ha : a < L.stackLow next ∨ (contextWord (savedMem t ret) (L.context next) 7).toNat ≤ a) :
    (t.switchTo next ret).cpu.mem a = savedMem t ret a := by
  have hheld := (held_savedMem hcall ret hall next).rsp
  unfold Layout.OnStack at hheld
  rw [(switchTo_spec hcall ret).2.2.2]
  exact write64_of_outside _ _ (by bv_omega)

/-- A switch keeps every other task held. -/
theorem AllHeld.switchTo [DecidableEq ι] (hall : AllHeld L t) :
    AllHeld L (t.switchTo next ret) := by
  intro k hk
  have hk : k ≠ next := hk
  have hheld := held_savedMem hcall ret hall k
  have hnext := (held_savedMem hcall ret hall next).rsp
  unfold Layout.OnStack at hnext
  refine hheld.congr (fun a ha => ?_) fun a h₁ h₂ => ?_
  · have h₁ := L.apart k next
    unfold Layout.InContext at ha
    exact switchTo_mem hcall ret hall (by omega)
  · have h₃ := L.stacks_apart k next hk
    have hlow : L.stackLow k + 8 ≤ _ := hheld.rsp.1
    exact switchTo_mem hcall ret hall (by omega)

end Switch

/-- Every run keeps the tasks that do not run held. -/
theorem allHeld_of_run [DecidableEq ι] {s₀ s : Tasks ι} (h₀ : TasksStart L s₀)
    (hrun : Relation.ReflTransGen (TaskStep L) s₀ s) : AllHeld L s := by
  induction hrun with
  | refl =>
    intro k hk
    refine ⟨h₀.rsp k hk, fun snap hsnap => ?_, fun snap hsnap => ?_⟩
    · rw [h₀.fresh k] at hsnap
      cases hsnap
    · rw [h₀.fresh k] at hsnap
      cases hsnap
  | tail _ hstep ih =>
    cases hstep with
    | work cpu h =>
      intro k hk
      have hlow := (ih k hk).rsp.1
      refine (ih k hk).congr (fun a ha => h k hk a (Or.inl ha)) fun a h₁ h₂ => ?_
      exact h k hk a (Or.inr ⟨by omega, h₂⟩)
    | switch h ret => exact ih.switchTo h ret

/-- A task goes on behind its call: the instruction after it, the callee-saved registers and
the stack pointer of the call, and the stack from there on. -/
structure Resumes (L : Layout ι) (i : ι) (snap : Snapshot) (cpu : Cpu) : Prop where
  rip : cpu.rip = snap.ret
  regs : ∀ r ∈ calleeSaved, cpu.regs r = snap.cpu.regs r
  rsp : cpu.regs .rsp = snap.cpu.regs .rsp
  stack : ∀ a, (snap.cpu.regs .rsp).toNat ≤ a → a < L.stackHigh i → cpu.mem a = snap.cpu.mem a

/-- **A context switch is a faithful transfer.**  In every run of any number of tasks, a
switch to a task that has called before resumes it behind its last call, and the context of
every other task that does not run stays as it is. -/
theorem contextSwitch_faithful [DecidableEq ι] {s₀ s : Tasks ι} (h₀ : TasksStart L s₀)
    (hrun : Relation.ReflTransGen (TaskStep L) s₀ s) {next : ι} (hcall : CanSwitch L s next)
    (ret : U64) :
    (∀ snap, (s.switchTo next ret).suspended next = some snap →
      Resumes L next snap (s.switchTo next ret).cpu) ∧
    ∀ k, k ≠ s.current → k ≠ next → ∀ a, L.InContext k a →
      (s.switchTo next ret).cpu.mem a = s.cpu.mem a := by
  have hall := allHeld_of_run h₀ hrun
  obtain ⟨hrip, hrsp, hregs, -⟩ := switchTo_spec hcall ret
  constructor
  · intro snap hsnap
    have hheld := held_savedMem hcall ret hall next
    rw [hsnap] at hheld
    refine ⟨hrip.trans (hheld.words snap rfl 6 _ rfl), fun r hr => ?_, hrsp.trans hheld.rsp_eq,
      fun a h₁ h₂ => ?_⟩
    · have hindex : ∀ q ∈ calleeSaved, ∃ j < 6, contextRegs[j]? = some q := by decide
      obtain ⟨j, hj, hq⟩ := hindex r hr
      refine (hregs j r hq).trans (hheld.words snap rfl j _ ?_)
      rw [Snapshot.words, List.getElem?_append_left (by simpa [contextRegs] using hj),
        List.getElem?_map, hq, Option.map_some]
    · rw [switchTo_mem hcall ret hall (Or.inr (by rw [hheld.rsp_eq]; exact h₁))]
      exact hheld.stack snap rfl a h₁ h₂
  · intro k hk hnext a ha
    have h₁ := L.apart k next
    have h₂ := L.contexts_apart k s.current hk
    have h₃ := L.apart k s.current
    have h₄ := hcall.rsp.1
    have h₅ := hcall.rsp.2
    have h₆ := (held_savedMem hcall ret hall next).rsp.2
    have h₇ := (held_savedMem hcall ret hall next).rsp.1
    unfold Layout.InContext at ha
    rw [switchTo_mem hcall ret hall (by omega)]
    refine savedMem_of_outside hcall ret ?_ (by omega)
    unfold Layout.InContext
    omega

/-- Two tasks. -/
def pairLayout : Layout Bool where
  context i := if i then 0x2000 else 0x1000
  stackLow i := if i then 0x6000 else 0x4000
  stackHigh i := if i then 0x7000 else 0x5000
  context_fits := by decide
  stack_fits := by decide
  contexts_apart := by decide
  stacks_apart := by decide
  apart := by decide

/-- A processor about to switch, with empty stack. -/
def pairCpu (mem : Mem) (old new rsp : U64) : Cpu where
  regs r := match r with
    | .rdi => old
    | .rsi => new
    | .rsp => rsp
    | _ => 0
  mem := mem
  rip := 0
  cs := 0
  rflags := 0
  ss := 0
  ports := []

/-- The first task runs, the second one has been prepared. -/
def pairStart : Tasks Bool where
  cpu := pairCpu (write64 (fun _ => 0) 0x2038 0x7000) 0x1000 0x2000 0x5000
  current := false
  suspended _ := none

/-- The second task, resumed and about to switch back. -/
def pairBack : Tasks Bool :=
  { pairStart.switchTo true 0x10 with
    cpu := pairCpu (pairStart.switchTo true 0x10).cpu.mem 0x2000 0x1000 0x7000 }

/-- There and back again. -/
theorem pairBack_resumes :
    Resumes pairLayout false ⟨pairStart.cpu, 0x10⟩ (pairBack.switchTo false 0x20).cpu := by
  have hstart : TasksStart pairLayout pairStart := by
    refine ⟨fun _ => rfl, fun k hk => ?_⟩
    obtain rfl : k = true := eq_true_of_ne_false hk
    have hrsp : contextWord pairStart.cpu.mem (pairLayout.context true) 7 = 0x7000 :=
      read64_write64 _ 0x2038 0x7000
    rw [hrsp]
    exact ⟨by decide, by decide⟩
  have hfirst : TaskStep pairLayout pairStart (pairStart.switchTo true 0x10) :=
    .switch ⟨rfl, rfl, by decide, by decide⟩ 0x10
  have hwork : TaskStep pairLayout (pairStart.switchTo true 0x10) pairBack :=
    .work _ fun _ _ _ _ => rfl
  exact (contextSwitch_faithful hstart ((Relation.ReflTransGen.single hfirst).tail hwork)
    ⟨rfl, rfl, by decide, by decide⟩ 0x20).1 _ rfl

end SuiraBox.Arch
