import LampVm.Interrupt

/-!
# Flags, shifts, floats and the instruction format

The operand-level functions of `vm.c`, `float.h` and `vm.h`. Flag updates are
functions of the old flags word, so that what an instruction leaves in the other
bits is part of each definition. C `float` is Lean's `Float32`, whose operations
are those of IEEE 754 binary32; the payload of a NaN result, which C leaves to
the host, is the canonical one.
-/
namespace LampVm

/-! ## Flags -/

/-- `flags |= mask` or `flags &= ~mask`. -/
def setFlag (flags mask : BitVec 32) (on : Prop) [Decidable on] : BitVec 32 :=
  if on then flags ||| mask else flags &&& ~~~mask

def zfSfFlags (flags result : BitVec 32) : BitVec 32 :=
  setFlag (setFlag flags flagZf (result = 0)) flagSf (result.toInt < 0)

def addFlags (flags a b result : BitVec 32) : BitVec 32 :=
  let flags := setFlag flags flagCf (a + b < a)
  let flags := setFlag flags flagOf
    ((a.toInt > 0 ∧ b.toInt > 0 ∧ result.toInt < 0) ∨
      (a.toInt < 0 ∧ b.toInt < 0 ∧ result.toInt > 0))
  zfSfFlags flags result

def subFlags (flags a b result : BitVec 32) : BitVec 32 :=
  let flags := setFlag flags flagCf (a < b)
  let flags := setFlag flags flagOf
    ((a.toInt > 0 ∧ b.toInt < 0 ∧ result.toInt < 0) ∨
      (a.toInt < 0 ∧ b.toInt > 0 ∧ result.toInt > 0))
  zfSfFlags flags result

def logicFlags (flags result : BitVec 32) : BitVec 32 :=
  zfSfFlags (flags &&& ~~~(flagCf ||| flagOf)) result

def clearAllFlags (flags : BitVec 32) : BitVec 32 :=
  flags &&& ~~~(flagZf ||| flagSf ||| flagCf ||| flagOf)

def casFlags (flags : BitVec 32) (success : Bool) : BitVec 32 :=
  if success then clearAllFlags flags ||| flagZf else clearAllFlags flags

def modifyFlags (c : ℕ) (f : BitVec 32 → BitVec 32) : VmM Unit :=
  modifyCpu c fun cpu => { cpu with flags := f cpu.flags }

def updateZfSf (c : ℕ) (result : BitVec 32) : VmM Unit :=
  modifyFlags c fun flags => zfSfFlags flags result

def updateAddFlags (c : ℕ) (a b result : BitVec 32) : VmM Unit :=
  modifyFlags c fun flags => addFlags flags a b result

def updateSubFlags (c : ℕ) (a b result : BitVec 32) : VmM Unit :=
  modifyFlags c fun flags => subFlags flags a b result

def updateLogicFlags (c : ℕ) (result : BitVec 32) : VmM Unit :=
  modifyFlags c fun flags => logicFlags flags result

/-! ## Rotations and relative targets -/

def rotl32 (v sh : BitVec 32) : BitVec 32 :=
  let sh := sh &&& 31
  if sh = 0 then v else v <<< sh.toNat ||| v >>> (32 - sh).toNat

def rotr32 (v sh : BitVec 32) : BitVec 32 :=
  let sh := sh &&& 31
  if sh = 0 then v else v >>> sh.toNat ||| v <<< (32 - sh).toNat

def relTargetFromLastIp (cpu : Vcpu) (imm : BitVec 32) : BitVec 32 :=
  let base : ℤ := (BitVec.ofNat 32 cpu.lastIp).toNat
  BitVec.ofInt 32 (base + imm.toInt)

/-! ## Floats -/

def regAsF32 (r : BitVec 32) : Float32 := Float32.ofBits ⟨r⟩

def f32AsReg (f : Float32) : BitVec 32 := f.toBits.toBitVec

def f32Zero : Float32 := Float32.ofBits 0

/-- `(r == 0.0f) ? 0 : (r < 0.0f ? -1 : 1)`. -/
def f32Sign (r : Float32) : BitVec 32 :=
  if r == f32Zero then 0 else if r < f32Zero then -1 else 1

/-- Negation and absolute value act on the sign bit alone, also for a NaN. -/
def f32NegBits (r : BitVec 32) : BitVec 32 := r ^^^ 0x80000000
def f32AbsBits (r : BitVec 32) : BitVec 32 := r &&& 0x7FFFFFFF

def f32OfI32 (i : BitVec 32) : Float32 := .ofModel (Float32.Model.ofInt i.toInt)

/-- The literals `2147483647.0f`, which rounds to `2 ^ 31`, and `-2147483648.0f`. -/
def f32IntMax : Float32 := Float32.ofBits 0x4F000000
def f32IntMin : Float32 := Float32.ofBits 0xCF000000

/-- `(int32_t) f`: truncation toward zero, undefined when it does not fit. -/
def f32ToI32 (f : Float32) : Option (BitVec 32) :=
  let i := f.toModel.unpack.toInt (-(2 ^ 31) - 1) (2 ^ 31)
  if -(2 ^ 31) ≤ i ∧ i < 2 ^ 31 then some (BitVec.ofInt 32 i) else none

def fcmpFlags (flags : BitVec 32) (a b : Float32) : BitVec 32 :=
  let flags := clearAllFlags flags
  if a.isNaN || b.isNaN then flags ||| flagOf
  else
    let flags := if a == b then flags ||| flagZf else flags
    let flags := if a < b then flags ||| flagSf else flags
    if a > b then flags ||| flagCf else flags

/-! ## Instruction format -/

/-- The opcodes of `vm.h`, in the order of their codes. -/
inductive Opcode
  | add | sub | mul | div | halt | jmp | jz | push | pop | call | ret
  | load | load32 | loadx32 | store | store32 | storex32 | cmp | cmpi | mov | movi
  | memset | memcpy | in | out | int | iret | mod | and | or | xor | not
  | shl | shr | sar | jnz | jg | jge | jl | jle | jc | jnc
  | fadd | fsub | fmul | fdiv | fneg | fabs | fsqrt | fcmp | itof | ftoi | fload32 | fstore32
  | inc | addi | subi | andi | ori | xori | shli | shri
  | cas | xadd | xchg | ldar | stlr | fence | pause | startap | ipi | cpuid
  | callr | rjmp | rcall | rjz | rjnz | rol | ror | roli | rori
  deriving DecidableEq, Repr

/-- `OP_ADD = 0x01`, ..., `OP_RORI = 0x51`, without gaps. -/
def opcodeTable : List Opcode :=
  [.add, .sub, .mul, .div, .halt, .jmp, .jz, .push, .pop, .call, .ret,
   .load, .load32, .loadx32, .store, .store32, .storex32, .cmp, .cmpi, .mov, .movi,
   .memset, .memcpy, .in, .out, .int, .iret, .mod, .and, .or, .xor, .not,
   .shl, .shr, .sar, .jnz, .jg, .jge, .jl, .jle, .jc, .jnc,
   .fadd, .fsub, .fmul, .fdiv, .fneg, .fabs, .fsqrt, .fcmp, .itof, .ftoi, .fload32, .fstore32,
   .inc, .addi, .subi, .andi, .ori, .xori, .shli, .shri,
   .cas, .xadd, .xchg, .ldar, .stlr, .fence, .pause, .startap, .ipi, .cpuid,
   .callr, .rjmp, .rcall, .rjz, .rjnz, .rol, .ror, .roli, .rori]

def Opcode.ofByte (b : BitVec 8) : Option Opcode :=
  if b = 0 then none else opcodeTable[b.toNat - 1]?

def Opcode.code (op : Opcode) : BitVec 8 := BitVec.ofNat 8 (opcodeTable.idxOf op + 1)

/-- The table has the opcodes in the order in which they are declared. -/
theorem opcodeTable_nodup : opcodeTable.Nodup := by
  have horder : opcodeTable.map Opcode.ctorIdx = List.range 81 := by decide
  refine List.Nodup.of_map Opcode.ctorIdx ?_
  rw [horder]
  exact List.nodup_range

theorem mem_opcodeTable (op : Opcode) : op ∈ opcodeTable := by
  cases op <;> decide +kernel

theorem Opcode.ofByte_code (op : Opcode) : Opcode.ofByte op.code = some op := by
  have hlt : opcodeTable.idxOf op < 81 := List.idxOf_lt_length_of_mem (mem_opcodeTable op)
  have hcode : op.code.toNat = opcodeTable.idxOf op + 1 := by
    rw [Opcode.code, BitVec.toNat_ofNat, Nat.mod_eq_of_lt (by omega)]
  have hne : op.code ≠ 0 := by
    intro h0
    rw [h0] at hcode
    exact absurd hcode (Nat.succ_ne_zero _).symm
  rw [Opcode.ofByte, if_neg hne, hcode, Nat.add_sub_cancel]
  exact List.getElem?_idxOf (mem_opcodeTable op)

theorem Opcode.code_of_ofByte {b : BitVec 8} {op : Opcode} (h : Opcode.ofByte b = some op) :
    b = op.code := by
  unfold Opcode.ofByte at h
  split_ifs at h with hzero
  obtain ⟨hlt, hget⟩ := List.getElem?_eq_some_iff.mp h
  have hidx : opcodeTable.idxOf op = b.toNat - 1 := by
    rw [← hget]
    exact opcodeTable_nodup.idxOf_getElem _ hlt
  have hne : b.toNat ≠ 0 := fun h0 => hzero (BitVec.eq_of_toNat_eq h0)
  rw [Opcode.code, hidx, Nat.sub_add_cancel (Nat.pos_of_ne_zero hne), BitVec.ofNat_toNat,
    BitVec.setWidth_eq]

structure Inst where
  op : BitVec 8
  rd : BitVec 8
  rs1 : BitVec 8
  rs2 : BitVec 8
  imm : BitVec 32
  deriving DecidableEq, Repr

/-- The field extraction at the end of `FETCH64`. -/
def Inst.decode (w : BitVec 64) : Inst where
  op := (w >>> 56 &&& 0xFF).setWidth 8
  rd := (w >>> 48 &&& 0xFF).setWidth 8
  rs1 := (w >>> 40 &&& 0xFF).setWidth 8
  rs2 := (w >>> 32 &&& 0xFF).setWidth 8
  imm := (w &&& 0xFFFFFFFF).setWidth 32

/-- `INST`. -/
def Inst.encode (i : Inst) : BitVec 64 :=
  (i.op.setWidth 64 <<< 56 ||| i.rd.setWidth 64 <<< 48 ||| i.rs1.setWidth 64 <<< 40 |||
    i.rs2.setWidth 64 <<< 32) ||| i.imm.setWidth 64

theorem getLsbD_lowMask {n : ℕ} (hn : n ≤ 64) (k : ℕ) :
    (BitVec.ofNat 64 (2 ^ n - 1)).getLsbD k = decide (k < n) := by
  rw [BitVec.getLsbD_ofNat, Nat.testBit_two_pow_sub_one]
  by_cases hk : k < n
  · simp only [hk, decide_true, Bool.and_true, decide_eq_true_eq]
    omega
  · simp only [hk, decide_false, Bool.and_false]

theorem getLsbD_byteMask (k : ℕ) : (0xFF : BitVec 64).getLsbD k = decide (k < 8) :=
  getLsbD_lowMask (n := 8) (by decide) k

theorem getLsbD_wordMask (k : ℕ) : (0xFFFFFFFF : BitVec 64).getLsbD k = decide (k < 32) :=
  getLsbD_lowMask (n := 32) (by decide) k

/-- The five fields occupy disjoint bits, so decoding undoes encoding. -/
theorem Inst.decode_encode (i : Inst) : Inst.decode i.encode = i := by
  obtain ⟨op, rd, rs1, rs2, imm⟩ := i
  simp only [Inst.decode, Inst.encode, Inst.mk.injEq]
  refine ⟨?_, ?_, ?_, ?_, ?_⟩ <;>
  · apply BitVec.eq_of_getLsbD_eq
    intro k hk
    simp only [BitVec.getLsbD_or, BitVec.getLsbD_shiftLeft, BitVec.getLsbD_setWidth,
      BitVec.getLsbD_and, BitVec.getLsbD_ushiftRight, getLsbD_byteMask, getLsbD_wordMask]
    grind

/-- Together they occupy every bit, so encoding undoes decoding. -/
theorem Inst.encode_decode (w : BitVec 64) : (Inst.decode w).encode = w := by
  apply BitVec.eq_of_getLsbD_eq
  intro k hk
  simp only [Inst.encode, Inst.decode, BitVec.getLsbD_or, BitVec.getLsbD_shiftLeft,
    BitVec.getLsbD_setWidth, BitVec.getLsbD_and, BitVec.getLsbD_ushiftRight, getLsbD_byteMask,
    getLsbD_wordMask]
  grind

end LampVm
