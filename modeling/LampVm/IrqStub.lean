import LampVm.GuestCode
import LampVm.StackLifo

/-!
# The interrupt stub of the kernel

`irq_stub_entry` of `kernel/src/irq.c`, which every entry of the vector table points to.
Behind interrupt entry it copies the vector and the first seven registers of the interrupted
program to global variables, takes the interrupt stack and calls
`irq_common_entry_from_stub`. Whatever the rest of the machine does meanwhile, the handler
finds the interrupted registers there and the saved context untouched.
-/
namespace LampVm

open ByteOrder Contract Transition

/-! ## Blocks of moves and stores -/

/-- What moves and stores leave of a core. -/
def Vcpu.besidesContext (cpu : Vcpu) : Vcpu :=
  { cpu with regs := fun _ => 0, flags := 0, ip := 0, lastIp := 0 }

/-- Whatever follows `code`, it starts at `t` when `code` starts at `s`. -/
structure Block (start stop : ℕ) (code : List Asm) (s t : CoreState) : Prop where
  context : t.cpu.besidesContext = s.cpu.besidesContext
  ip : t.cpu.fetchIp.toNat = s.cpu.fetchIp.toNat + 8 * code.length
  run : ∀ {rest u}, Straight start stop rest t u → Straight start stop (code ++ rest) s u

section Blocks

variable {start stop : ℕ} {code code' : List Asm} {i : Asm} {s t u : CoreState}

theorem Block.nil : Block start stop [] s s := ⟨rfl, rfl, fun h => h⟩

theorem Block.append (h : Block start stop code s t) (h' : Block start stop code' t u) :
    Block start stop (code ++ code') s u := by
  refine ⟨h'.context.trans h.context, ?_, fun hrest => ?_⟩
  · rw [h'.ip, h.ip, List.length_append]
    omega
  · rw [List.append_assoc]
    exact h.run (h'.run hrest)

theorem Block.single (hload : i.loads = false) (hstep : i.step s.fetched = some t)
    (hkeep : ∀ x, start ≤ x → x < stop → t.memory x = s.memory x)
    (hcontext : t.cpu.besidesContext = s.cpu.besidesContext)
    (hip : t.cpu.ip = (s.cpu.fetchIp + 8).toNat) (hspace : s.cpu.fetchIp.toNat + 8 < 2 ^ 32) :
    Block start stop [i] s t := by
  have hadd : (s.cpu.fetchIp + 8).toNat = s.cpu.fetchIp.toNat + 8 := by
    rw [BitVec.toNat_add]
    exact Nat.mod_eq_of_lt hspace
  refine ⟨hcontext, ?_, fun hrest => .cons hload hstep hkeep (fun _ => hip.trans hadd) hrest⟩
  rw [Vcpu.fetchIp, hip, hadd, BitVec.toNat_ofNat, Nat.mod_eq_of_lt hspace, List.length_singleton]

/-- Moves between registers, and from constants. -/
def Asm.moves : Asm → Bool
  | .mov _ _ | .movi _ _ => true
  | _ => false

def Asm.moved (i : Asm) (regs : Fin regCount → BitVec 32) : Fin regCount → BitVec 32 :=
  match i with
  | .mov rd rs => Function.update regs rd (regs rs)
  | .movi rd imm => Function.update regs rd imm
  | _ => regs

theorem block_move (start stop : ℕ) (hi : i.moves = true) (s : CoreState)
    (hspace : s.cpu.fetchIp.toNat + 8 < 2 ^ 32) :
    ∃ t, Block start stop [i] s t ∧ t.memory = s.memory ∧ t.cpu.regs = i.moved s.cpu.regs := by
  cases i with
  | mov rd rs => exact ⟨_, .single rfl rfl (fun _ _ _ => rfl) rfl rfl hspace, rfl, rfl⟩
  | movi rd imm => exact ⟨_, .single rfl rfl (fun _ _ _ => rfl) rfl rfl hspace, rfl, rfl⟩
  | _ => cases hi

theorem block_moves (start stop : ℕ) (code : List Asm) (hcode : ∀ i ∈ code, i.moves = true)
    (s : CoreState)
    (hspace : s.cpu.fetchIp.toNat + 8 * code.length < 2 ^ 32) :
    ∃ t, Block start stop code s t ∧ t.memory = s.memory ∧
      t.cpu.regs = code.foldl (fun regs i => i.moved regs) s.cpu.regs := by
  induction code generalizing s with
  | nil => exact ⟨s, .nil, rfl, rfl⟩
  | cons i code ih =>
    obtain ⟨hi, hrest⟩ := List.forall_mem_cons.mp hcode
    rw [List.length_cons] at hspace
    obtain ⟨t, hblock, hmem, hregs⟩ := block_move start stop hi s (by omega)
    have hip := hblock.ip
    rw [List.length_singleton] at hip
    obtain ⟨u, hblock', hmem', hregs'⟩ := ih hrest t (by omega)
    exact ⟨u, hblock.append hblock', hmem'.trans hmem, by rw [hregs', hregs, List.foldl_cons]⟩

/-- A register is stored at a constant address. -/
def storeWord (rd : Fin regCount) (a : BitVec 32) : List Asm := [.movi 0 a, .store32 rd 0 0]

/-- Memory after the registers of `ws` have been stored. -/
def storedWords (regs : Fin regCount → BitVec 32) (ws : List (Fin regCount × BitVec 32))
    (m : Bytes) : Bytes :=
  ws.foldl (fun m w => leStore m w.2.toNat 4 (regs w.1).toNat) m

theorem block_storeWord {rd : Fin regCount} (hrd : rd ≠ 0) {a : BitVec 32} (ha : PlainCell a 4)
    (hout : a.toNat + 4 ≤ start ∨ stop ≤ a.toNat) (s : CoreState)
    (hspace : s.cpu.fetchIp.toNat + 16 < 2 ^ 32) :
    ∃ t, Block start stop (storeWord rd a) s t ∧
      t.memory = leStore s.memory a.toNat 4 (s.cpu.regs rd).toNat ∧
      ∀ r, r ≠ 0 → t.cpu.regs r = s.cpu.regs r := by
  obtain ⟨t, hmove, hmem, hregs⟩ := block_move (i := .movi 0 a) start stop rfl s (by omega)
  have hother : ∀ r, r ≠ 0 → t.cpu.regs r = s.cpu.regs r := by
    intro r hr
    rw [hregs, Asm.moved, Function.update_of_ne hr]
  have haddr : t.fetched.cpu.regs 0 + 0 = a := by
    change t.cpu.regs 0 + 0 = a
    rw [hregs, Asm.moved, Function.update_self]
    exact BitVec.add_zero a
  have hstep : (Asm.store32 rd 0 0).step t.fetched =
      some { t.fetched with memory := leStore t.memory a.toNat 4 (t.cpu.regs rd).toNat } := by
    simp only [Asm.step, haddr, if_pos ha]
    rfl
  have hip := hmove.ip
  rw [List.length_singleton] at hip
  refine ⟨_, hmove.append (.single (t := { t.fetched with memory := _ }) rfl hstep ?_ rfl rfl
    (by omega)), ?_, hother⟩
  · intro x h1 h2
    exact leStore_of_not_mem (by omega)
  · rw [hmem, hother rd hrd]

theorem block_storeWords (ws : List (Fin regCount × BitVec 32))
    (hws : ∀ w ∈ ws, w.1 ≠ 0 ∧ PlainCell w.2 4 ∧ (w.2.toNat + 4 ≤ start ∨ stop ≤ w.2.toNat))
    (s : CoreState) (hspace : s.cpu.fetchIp.toNat + 16 * ws.length < 2 ^ 32) :
    ∃ t, Block start stop (ws.flatMap fun w => storeWord w.1 w.2) s t ∧
      t.memory = storedWords s.cpu.regs ws s.memory ∧ ∀ r, r ≠ 0 → t.cpu.regs r = s.cpu.regs r := by
  induction ws generalizing s with
  | nil => exact ⟨s, .nil, rfl, fun _ _ => rfl⟩
  | cons w ws ih =>
    obtain ⟨⟨hrd, hplain, hout⟩, hrest⟩ := List.forall_mem_cons.mp hws
    rw [List.length_cons] at hspace
    obtain ⟨t, hblock, hmem, hregs⟩ := block_storeWord hrd hplain hout s (by omega)
    have hip := hblock.ip
    rw [show (storeWord w.1 w.2).length = 2 from rfl] at hip
    obtain ⟨u, hblock', hmem', hregs'⟩ := ih hrest t (by omega)
    refine ⟨u, hblock.append hblock', ?_, fun r hr => (hregs' r hr).trans (hregs r hr)⟩
    rw [hmem', hmem, storedWords, storedWords, List.foldl_cons]
    exact List.foldl_ext _ _ _ fun m v hv => by rw [hregs _ (hrest v hv).1]

end Blocks

/-! ## Stored words -/

section Stored

variable {regs : Fin regCount → BitVec 32} {ws : List (Fin regCount × BitVec 32)}

theorem storedWords_cons (w : Fin regCount × BitVec 32) (m : Bytes) :
    storedWords regs (w :: ws) m =
      storedWords regs ws (leStore m w.2.toNat 4 (regs w.1).toNat) := rfl

theorem storedWords_outside {x : ℕ} (h : ∀ w ∈ ws, x < w.2.toNat ∨ w.2.toNat + 4 ≤ x) (m : Bytes) :
    storedWords regs ws m x = m x := by
  induction ws generalizing m with
  | nil => rfl
  | cons w ws ih =>
    obtain ⟨hw, hrest⟩ := List.forall_mem_cons.mp h
    rw [storedWords_cons]
    exact (ih hrest _).trans (leStore_of_not_mem (by omega))

/-- Distinct aligned cells keep what was stored there. -/
theorem leNat_storedWords (hplain : ∀ w ∈ ws, w.2.toNat % 4 = 0) (hnodup : (ws.map Prod.snd).Nodup)
    {w : Fin regCount × BitVec 32} (hw : w ∈ ws) (m : Bytes) :
    leNat (storedWords regs ws m) w.2.toNat 4 = (regs w.1).toNat := by
  induction ws generalizing m with
  | nil => cases hw
  | cons v ws ih =>
    obtain ⟨hv, hrest⟩ := List.forall_mem_cons.mp hplain
    rw [List.map_cons, List.nodup_cons] at hnodup
    rw [storedWords_cons]
    rcases List.mem_cons.mp hw with rfl | hmem
    · have hout : ∀ x, w.2.toNat ≤ x → x < w.2.toNat + 4 → ∀ v ∈ ws,
          x < v.2.toNat ∨ v.2.toNat + 4 ≤ x := by
        intro x h1 h2 v hmem
        have hne : v.2.toNat ≠ w.2.toNat := by
          intro heq
          exact hnodup.1 (BitVec.eq_of_toNat_eq heq ▸ List.mem_map_of_mem hmem)
        have := hrest v hmem
        omega
      rw [leNat_congr fun x h1 h2 => storedWords_outside (hout x h1 h2) _, leNat_leStore]
      exact Nat.mod_eq_of_lt (regs w.1).isLt
    · exact ih hrest hnodup.2 hmem _

end Stored

/-! ## The stub -/

/-- The addresses behind the names in the stub. -/
structure StubSymbols where
  irqStubEntry : BitVec 32
  irqCommonEntryFromStub : BitVec 32
  gIrqStubNo : BitVec 32
  gIrqStubR : Fin 7 → BitVec 32

namespace StubSymbols

variable (σ : StubSymbols)

def irqStub : List Asm :=
  [.mov 8 0, .mov 9 1, .mov 10 2, .mov 11 3, .mov 12 4, .mov 13 5, .mov 14 6, .mov 2 31,
   .movi 30 0x003FF000, .mov 31 30,
   .movi 0 σ.gIrqStubNo, .store32 2 0 0,
   .movi 0 (σ.gIrqStubR 0), .store32 8 0 0,
   .movi 0 (σ.gIrqStubR 1), .store32 9 0 0,
   .movi 0 (σ.gIrqStubR 2), .store32 10 0 0,
   .movi 0 (σ.gIrqStubR 3), .store32 11 0 0,
   .movi 0 (σ.gIrqStubR 4), .store32 12 0 0,
   .movi 0 (σ.gIrqStubR 5), .store32 13 0 0,
   .movi 0 (σ.gIrqStubR 6), .store32 14 0 0,
   .call σ.irqCommonEntryFromStub,
   .iret]

/-- The moves at the start of the stub. -/
def stubMoves : List Asm :=
  [.mov 8 0, .mov 9 1, .mov 10 2, .mov 11 3, .mov 12 4, .mov 13 5, .mov 14 6, .mov 2 31,
   .movi 30 0x003FF000, .mov 31 30]

/-- The register that keeps argument `i`. -/
def argReg (i : Fin 7) : Fin regCount := ⟨8 + i, by have := i.isLt; simp only [regCount]; omega⟩

/-- What the stub stores, and where. -/
def stored : List (Fin regCount × BitVec 32) :=
  (2, σ.gIrqStubNo) :: (List.finRange 7).map fun i => (argReg i, σ.gIrqStubR i)

theorem argReg_ne_zero : ∀ i, argReg i ≠ 0 := by decide

theorem stored_reg : ∀ w ∈ σ.stored, w.1 ≠ 0 := by
  intro w hw
  rcases List.mem_cons.mp hw with rfl | hw
  · exact show (2 : Fin regCount) ≠ 0 by decide
  · obtain ⟨i, -, rfl⟩ := List.mem_map.mp hw
    exact argReg_ne_zero i

def codeBytes : ℕ := 8 * 28

end StubSymbols

/-- The ranges `[a, a + n)` and `[b, b + k)` share no byte. -/
def Apart (a n b k : ℕ) : Prop := a + n ≤ b ∨ b + k ≤ a

instance (a n b k : ℕ) : Decidable (Apart a n b k) := inferInstanceAs (Decidable (_ ∨ _))

/-- The stub, its variables, the next cell of the call stack and the ISR stack of the core lie in
RAM and do not overlap. -/
structure StubLayout (σ : StubSymbols) (cpu : Vcpu) : Prop where
  code : σ.irqStubEntry.toNat + StubSymbols.codeBytes ≤ memSize
  plain : ∀ w ∈ σ.stored, PlainCell w.2 4
  nodup : (σ.stored.map Prod.snd).Nodup
  room : cpu.csp ≠ 0
  call : PlainCell cpu.callCell 8
  stored_code : ∀ w ∈ σ.stored, Apart w.2.toNat 4 σ.irqStubEntry.toNat StubSymbols.codeBytes
  stored_call : ∀ w ∈ σ.stored, Apart w.2.toNat 4 cpu.callCell.toNat 8
  stored_isr : ∀ w ∈ σ.stored, Apart w.2.toNat 4 cpu.isrStackBase.toNat isrStackBytes
  code_call : Apart σ.irqStubEntry.toNat StubSymbols.codeBytes cpu.callCell.toNat 8
  code_isr : Apart σ.irqStubEntry.toNat StubSymbols.codeBytes cpu.isrStackBase.toNat isrStackBytes
  call_isr : Apart cpu.callCell.toNat 8 cpu.isrStackBase.toNat isrStackBytes

/-- The bytes that the stub is about. -/
def StubSymbols.owned (σ : StubSymbols) (cpu : Vcpu) (x : ℕ) : Prop :=
  (σ.irqStubEntry.toNat ≤ x ∧ x < σ.irqStubEntry.toNat + StubSymbols.codeBytes) ∨
    (∃ w ∈ σ.stored, w.2.toNat ≤ x ∧ x < w.2.toNat + 4) ∨
    (cpu.callCell.toNat ≤ x ∧ x < cpu.callCell.toNat + 8) ∨
    (cpu.isrStackBase.toNat ≤ x ∧ x < cpu.isrStackBase.toNat + isrStackBytes)

/-- The handler of vector `n` is about to start: `cpu` was interrupted. -/
structure HandedOver (σ : StubSymbols) (cpu : Vcpu) (c : ℕ) (n : BitVec 32) (w : Vm) : Prop where
  ip : (w.cpus c).ip = σ.irqCommonEntryFromStub.toNat
  stack : (w.cpus c).regs 31 = 0x003FF000
  number : leNat w.memory σ.gIrqStubNo.toNat 4 = n.toNat
  args : ∀ i : Fin 7, leNat w.memory (σ.gIrqStubR i).toNat 4 =
    (cpu.regs (i.castLE (by decide))).toNat
  callCell : (w.cpus c).csp = cpu.csp - 1 ∧
    leNat w.memory cpu.callCell.toNat 8 = σ.irqStubEntry.toNat + 8 * 27
  back : leNat w.memory (σ.irqStubEntry.toNat + 8 * 27) 8 = Asm.iret.inst.encode.toNat
  inInterrupt : (w.cpus c).inInterrupt = 1
  isp : (w.cpus c).isp = isrStackSize - contextWords
  saved : StackHolds w.memory cpu.isrStackBase.toNat 222 (savedContext cpu)

section Stub

variable {σ : StubSymbols} {cpu : Vcpu} {c : ℕ} {n : BitVec 32}

/-- The core behind the call, when the stub started with memory `m` and the registers that it
stores are those of `regs`. -/
structure StubExit (σ : StubSymbols) (cpu : Vcpu) (n : BitVec 32) (regs : Fin regCount → BitVec 32)
    (m : Bytes) (t : CoreState) : Prop where
  ip : t.cpu.ip = σ.irqCommonEntryFromStub.toNat
  stack : t.cpu.regs 31 = 0x003FF000
  csp : t.cpu.csp = cpu.csp - 1
  isp : t.cpu.isp = isrStackSize - contextWords
  inInterrupt : t.cpu.inInterrupt = 1
  number : regs 2 = n
  args : ∀ i : Fin 7, regs (StubSymbols.argReg i) = cpu.regs (i.castLE (by decide))
  memory : t.memory = leStore (storedWords regs σ.stored m) cpu.callCell.toNat 8
    (σ.irqStubEntry.toNat + 8 * 27)

/-- Where the stub leads. -/
theorem straight_irqStub (hlay : StubLayout σ cpu) {s : CoreState}
    (hs : s.cpu.besidesContext = (cpu.inHandler n (σ.irqStubEntry.setWidth 64)).besidesContext)
    (hip : s.cpu.fetchIp = σ.irqStubEntry) (hn : s.cpu.regs 31 = n)
    (hargs : ∀ r : Fin regCount, r ≠ 31 → s.cpu.regs r = cpu.regs r) :
    ∃ t regs, StubExit σ cpu n regs s.memory t ∧
      Straight σ.irqStubEntry.toNat (σ.irqStubEntry.toNat + 8 * 27) σ.irqStub.dropLast s t := by
  have hcode := hlay.code
  have hbytes : StubSymbols.codeBytes = 224 := rfl
  have hsize : memSize = 67108864 := rfl
  have hout : ∀ w ∈ σ.stored, w.1 ≠ 0 ∧ PlainCell w.2 4 ∧ (w.2.toNat + 4 ≤ σ.irqStubEntry.toNat ∨
      σ.irqStubEntry.toNat + 8 * 27 ≤ w.2.toNat) := by
    intro w hw
    refine ⟨σ.stored_reg w hw, hlay.plain w hw, ?_⟩
    rcases hlay.stored_code w hw with h | h
    · exact .inl h
    · exact .inr (by omega)
  obtain ⟨u, hmoves, humem, huregs⟩ := block_moves σ.irqStubEntry.toNat
    (σ.irqStubEntry.toNat + 8 * 27) StubSymbols.stubMoves (by decide) s (by
      rw [hip, show StubSymbols.stubMoves.length = 10 from rfl]; omega)
  have huip := hmoves.ip
  rw [show StubSymbols.stubMoves.length = 10 from rfl, hip] at huip
  obtain ⟨v, hstores, hvmem, hvregs⟩ := block_storeWords σ.stored hout u (by
      rw [huip, show σ.stored.length = 8 from rfl]; omega)
  have hvip := hstores.ip
  rw [show (σ.stored.flatMap fun w => storeWord w.1 w.2).length = 16 from rfl, huip] at hvip
  have hframe := (hstores.context.trans hmoves.context).trans hs
  have hcell : v.fetched.cpu.callCell = cpu.callCell := (congrArg Vcpu.callCell hframe :)
  have hcsp : v.fetched.cpu.csp = cpu.csp := (congrArg Vcpu.csp hframe :)
  have hback : ((BitVec.ofNat 32 v.fetched.cpu.ip).setWidth 64).toNat =
      σ.irqStubEntry.toNat + 8 * 27 := by
    have hnext : (v.cpu.fetchIp + 8).toNat = σ.irqStubEntry.toNat + 8 * 27 := by
      rw [BitVec.toNat_add, hvip, show (8 : BitVec 32).toNat = 8 from rfl]
      exact Nat.mod_eq_of_lt (by omega)
    rw [BitVec.toNat_setWidth, BitVec.toNat_ofNat]
    change (v.cpu.fetchIp + 8).toNat % 2 ^ 32 % 2 ^ 64 = _
    omega
  have hcall : (Asm.call σ.irqCommonEntryFromStub).step v.fetched = some
      { cpu := { v.fetched.cpu with csp := cpu.csp - 1, ip := σ.irqCommonEntryFromStub.toNat }
        memory := leStore v.memory cpu.callCell.toNat 8 (σ.irqStubEntry.toNat + 8 * 27) } := by
    simp only [Asm.step]
    rw [hcell, hcsp, if_pos ⟨hlay.room, hlay.call⟩, hback]
    rfl
  have hkeep : ∀ x, σ.irqStubEntry.toNat ≤ x → x < σ.irqStubEntry.toNat + 8 * 27 →
      leStore v.memory cpu.callCell.toNat 8 (σ.irqStubEntry.toNat + 8 * 27) x = v.memory x := by
    intro x h1 h2
    have hapart := hlay.code_call
    rw [Apart] at hapart
    exact leStore_of_not_mem (by omega)
  refine ⟨_, u.cpu.regs, ?_,
    hmoves.run (hstores.run (.cons rfl hcall hkeep (fun h => absurd rfl h) (.nil _)))⟩
  refine ⟨rfl, ?_, rfl, congrArg Vcpu.isp hframe, congrArg Vcpu.inInterrupt hframe, ?_, ?_, ?_⟩
  · exact (hvregs 31 (by decide)).trans (by rw [huregs]; rfl)
  · rw [huregs]
    exact hn
  · intro i
    rw [huregs, ← hargs _ (by fin_cases i <;> decide)]
    fin_cases i <;> rfl
  · rw [← humem, ← hvmem]

theorem StubSymbols.owned_stored {w : Fin regCount × BitVec 32} (hw : w ∈ σ.stored) {x : ℕ}
    (h1 : w.2.toNat ≤ x) (h2 : x < w.2.toNat + 4) : σ.owned cpu x := .inr (.inl ⟨w, hw, h1, h2⟩)

/-- What the exit of the stub says about a state that agrees with it on the stub's bytes. -/
theorem StubExit.handedOver (hlay : StubLayout σ cpu) {v w : Vm} {t : CoreState}
    {regs : Fin regCount → BitVec 32} (h : StubExit σ cpu n regs v.memory t)
    (hcpu : w.cpus c = t.cpu) (hmem : ∀ x, σ.owned cpu x → w.memory x = t.memory x)
    (hcode : CodeAt v.memory σ.irqStubEntry.toNat σ.irqStub)
    (hsaved : StackHolds v.memory cpu.isrStackBase.toNat 222 (savedContext cpu)) :
    HandedOver σ cpu c n w := by
  have hbytes : StubSymbols.codeBytes = 224 := rfl
  have hcodeEnd := hlay.code
  have hsize : memSize = 67108864 := rfl
  have hcell : ∀ x ∈ σ.stored, leNat w.memory x.2.toNat 4 = (regs x.1).toNat := by
    intro x hx
    have hapart := hlay.stored_call x hx
    rw [Apart] at hapart
    rw [leNat_congr fun y h1 h2 => hmem y (StubSymbols.owned_stored hx h1 h2), h.memory,
      leNat_leStore_of_disjoint (by omega)]
    exact leNat_storedWords (fun y hy => (hlay.plain y hy).2.2) hlay.nodup hx _
  have hkept : ∀ y, σ.owned cpu y → (y < cpu.callCell.toNat ∨ cpu.callCell.toNat + 8 ≤ y) →
      (∀ x ∈ σ.stored, y < x.2.toNat ∨ x.2.toNat + 4 ≤ y) → w.memory y = v.memory y := by
    intro y hy hcall hstored
    rw [hmem y hy, h.memory, leStore_of_not_mem (by omega), storedWords_outside hstored]
  refine ⟨by rw [hcpu, h.ip], by rw [hcpu, h.stack], ?_, fun i => ?_, ⟨by rw [hcpu, h.csp], ?_⟩, ?_,
    by rw [hcpu, h.inInterrupt], by rw [hcpu, h.isp], ?_⟩
  · rw [← h.number]
    exact hcell (2, σ.gIrqStubNo) (List.mem_cons_self ..)
  · rw [← h.args]
    exact hcell (StubSymbols.argReg i, σ.gIrqStubR i)
      (List.mem_cons_of_mem _ (List.mem_map_of_mem (List.mem_finRange i)))
  · rw [leNat_congr fun y h1 h2 => hmem y (.inr (.inr (.inl ⟨h1, h2⟩))), h.memory, leNat_leStore]
    exact Nat.mod_eq_of_lt (by omega)
  · rw [← hcode 27 .iret rfl]
    have hcall := hlay.code_call
    rw [Apart] at hcall
    refine leNat_congr fun y h1 h2 => hkept y (.inl (by omega)) (by omega) fun x hx => ?_
    have hapart := hlay.stored_code x hx
    rw [Apart] at hapart
    omega
  · have hcall := hlay.call_isr
    rw [Apart] at hcall
    have hisr : isrStackBytes = 8 * (222 + 34) := rfl
    refine hsaved.congr fun y h1 h2 => ?_
    rw [savedContext_length] at h2
    refine hkept y (.inr (.inr (.inr ⟨h1, by omega⟩))) (by omega) fun x hx => ?_
    have hapart := hlay.stored_isr x hx
    rw [Apart] at hapart
    omega

/-- For every core and every vector whose entry points to the stub: after 27 instructions of its
own, whatever happens in between, the core is at the handler and the interrupted program is
as it was; until then it can get on. -/
theorem irq_stub_hands_over {smpCores : ℤ} (hcores : coreCount smpCores ≤ 64) {s u : Vm}
    (hs : Reachable (machine memSize smpCores) s) (hc : c < s.smpCores) (hu : AtEntry c s u)
    (hflag : (u.cpus c).inInterrupt = 0) (hn : n.toNat < ivtSize)
    (hivt : u.ivtWord n = σ.irqStubEntry.setWidth 64)
    (hcode : CodeAt u.memory σ.irqStubEntry.toNat σ.irqStub) (hlay : StubLayout σ (u.cpus c)) :
    ∃ v, vmEnterInterrupt c n u = .ok ((), v) ∧ ∀ events w,
      Run ((machine memSize smpCores).restrict (Undisturbed c (σ.owned (u.cpus c)))) v events w →
      (events.countP (Event.isInstruction c) < 27 → ∃ t, vmInstructionCase c w = .ok ((), t)) ∧
      (events.countP (Event.isInstruction c) = 27 → HandedOver σ (u.cpus c) c n w) := by
  have hinv : Sound smpCores u := hu.inv (reachable_inv hs)
  have hcN : c < coreCount smpCores := (reachable_inv hs).smpCores ▸ hc
  have hcore := hinv.core c hcN
  have hisp : (u.cpus c).isp = isrStackSize := by
    rcases hcore.phase with ⟨-, h⟩ | ⟨h, -⟩
    · exact h
    · omega
  have hword : u.ivtWord n ≠ BitVec.allOnes 64 := by
    intro h
    have htop := congrArg BitVec.toNat (hivt.symm.trans h)
    have hlt := σ.irqStubEntry.isLt
    rw [BitVec.toNat_setWidth, BitVec.toNat_allOnes] at htop
    omega
  obtain ⟨v, hrun, hvcpu, hsaved, hentry⟩ := vmEnterInterrupt_saves hn
    (isrRegion_of_inv hcores hcN hinv) hisp hflag (ivtEntry_plain hinv hn) hword
  have hv : Sound smpCores v := (kept_vmEnterInterrupt hcN (settled_mayEnter c) n).ok hinv hrun
  have hbytes : StubSymbols.codeBytes = 224 := rfl
  have hend := hlay.code
  have hisr := hlay.code_isr
  rw [Apart] at hisr
  have hvcode : CodeAt v.memory σ.irqStubEntry.toNat σ.irqStub := by
    refine hcode.congr fun x h1 h2 => hentry x ?_
    rw [show σ.irqStub.length = 28 from rfl] at h2
    omega
  have hfetch : (v.cpus c).fetchIp = σ.irqStubEntry := by
    rw [hvcpu, hivt]
    simp [Vcpu.fetchIp, Vcpu.inHandler]
  obtain ⟨t, regs, hexit, hstraight⟩ := straight_irqStub (n := n) hlay (s := v.core c)
    (by rw [Vm.core, hvcpu, hivt]) hfetch (by rw [Vm.core, hvcpu]; simp [Vcpu.inHandler])
    fun r hr => by rw [Vm.core, hvcpu]; simp [Vcpu.inHandler, hr]
  refine ⟨v, hrun, fun events w hw => ?_⟩
  have hhere : (straightCode σ.irqStubEntry.toNat (σ.irqStubEntry.toNat + 8 * 27)
      (σ.owned (u.cpus c)) t).holds σ.irqStub.dropLast (v.core c) := by
    refine ⟨v.core c, hstraight, rfl, fun _ _ => rfl, fun _ => ?_⟩
    change CodeAt v.memory (v.cpus c).fetchIp.toNat _ ∧ _ ≤ (v.cpus c).fetchIp.toNat ∧
      (v.cpus c).fetchIp.toNat + _ = _
    rw [hfetch]
    exact ⟨(show CodeAt v.memory _ (σ.irqStub.dropLast ++ [.iret]) from hvcode).left, le_rfl, rfl⟩
  have hstop : σ.irqStubEntry.toNat + 8 * 27 ≤ memSize := by omega
  have howned : ∀ x, σ.irqStubEntry.toNat ≤ x → x < σ.irqStubEntry.toNat + 8 * 27 →
      σ.owned (u.cpus c) x := fun x h1 h2 => .inl ⟨h1, by omega⟩
  have hlen : σ.irqStub.dropLast.length = 27 := rfl
  constructor
  · intro hk
    obtain ⟨hsound, hholds⟩ := straightCode_run hstop howned hv hhere hw (by omega)
    obtain ⟨t', -, hstep, -⟩ := (straightCode_valid hstop howned t).advance hsound.guestRam hholds
      fun hnil => by
        have := List.drop_eq_nil_iff.mp hnil
        omega
    exact ⟨t', hstep⟩
  · intro hk
    obtain ⟨-, hholds⟩ := straightCode_run hstop howned hv hhere hw (by omega)
    rw [hk, show σ.irqStub.dropLast.drop 27 = [] from rfl] at hholds
    obtain ⟨_, hdone, hcpu, hmem, -⟩ := hholds
    cases hdone
    exact hexit.handedOver hlay hcpu hmem hvcode hsaved

end Stub

/-- A program that is the stub, with its variables behind it. -/
def stubSymbols : StubSymbols where
  irqStubEntry := BitVec.ofNat 32 programBase
  irqCommonEntryFromStub := 0x00200000
  gIrqStubNo := 0x00210000
  gIrqStubR i := 0x00210004 + 4 * BitVec.ofNat 32 i

theorem stubSymbols_stored : ∀ w ∈ stubSymbols.stored, PlainCell w.2 4 ∧
    Apart w.2.toNat 4 stubSymbols.irqStubEntry.toNat StubSymbols.codeBytes ∧
    Apart w.2.toNat 4 (initCpu memSize 1 (BitVec.ofNat 32 programBase) 0).callCell.toNat 8 ∧
    Apart w.2.toNat 4 (initCpu memSize 1 (BitVec.ofNat 32 programBase) 0).isrStackBase.toNat
      isrStackBytes := by
  have hall : stubSymbols.stored.all (fun w => decide (PlainCell w.2 4 ∧
      Apart w.2.toNat 4 stubSymbols.irqStubEntry.toNat StubSymbols.codeBytes ∧
      Apart w.2.toNat 4 (initCpu memSize 1 (BitVec.ofNat 32 programBase) 0).callCell.toNat 8 ∧
      Apart w.2.toNat 4 (initCpu memSize 1 (BitVec.ofNat 32 programBase) 0).isrStackBase.toNat
        isrStackBytes)) = true := by
    decide
  intro w hw
  exact of_decide_eq_true (List.all_eq_true.mp hall w hw)

theorem stubSymbols_layout :
    StubLayout stubSymbols (initCpu memSize 1 (BitVec.ofNat 32 programBase) 0) where
  code := by decide
  plain w hw := (stubSymbols_stored w hw).1
  nodup := by decide
  room := by decide
  call := by decide
  stored_code w hw := (stubSymbols_stored w hw).2.1
  stored_call w hw := (stubSymbols_stored w hw).2.2.1
  stored_isr w hw := (stubSymbols_stored w hw).2.2.2
  code_call := by decide
  code_isr := by decide
  call_isr := by decide

theorem irq_stub_hands_over_installed : ∃ u v, Reachable (machine memSize 1) u ∧
    vmEnterInterrupt 0 5 u = .ok ((), v) ∧ ∀ events w,
      Run ((machine memSize 1).restrict (Undisturbed 0 (stubSymbols.owned (u.cpus 0)))) v events w →
      events.countP (Event.isInstruction 0) = 27 → HandedOver stubSymbols (u.cpus 0) 0 5 w := by
  obtain ⟨vm, hvm⟩ := exists_started ⟨fun _ => 0, fun _ => 0, 0⟩
    (stubSymbols.irqStub.map fun i => i.inst.encode) (by decide)
  have hinit : Reachable (machine memSize 1) vm := .of_init hvm.init
  have hu : Reachable (machine memSize 1) (vm.registered 5 (BitVec.ofNat 32 programBase)) :=
    hinit.step (l := .registerIsr 5 _)
      ⟨trivial, registerIsr_run (reachable_inv hinit) (by decide) _⟩
  have hword := (hvm.atWord (by decide)).registered (n := 5) (by decide)
    (BitVec.ofNat 32 programBase)
  have hcode : CodeAt (vm.registered 5 (BitVec.ofNat 32 programBase)).memory programBase
      stubSymbols.irqStub := by
    intro k i hk
    have hlt := (List.getElem?_eq_some_iff.mp hk).1
    rw [hword.word k (by rwa [List.length_map]), List.getD_eq_getElem?_getD, List.getElem?_map, hk]
    rfl
  obtain ⟨v, hv, hrest⟩ := irq_stub_hands_over (c := 0) (n := 5) (σ := stubSymbols) (by decide) hu
    (show 0 < vm.smpCores by rw [hvm.smpCores]; decide) .direct
    (show (vm.cpus 0).inInterrupt = 0 by rw [hvm.core]; rfl) (by decide)
    (ivtWord_registered vm 5 _)
    hcode (show StubLayout stubSymbols (vm.cpus 0) by rw [hvm.core]; exact stubSymbols_layout)
  exact ⟨_, v, hu, hv, fun events w hw => (hrest events w hw).2⟩

end LampVm
