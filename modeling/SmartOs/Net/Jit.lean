/-
# The baseline compiler of the JavaScript engine

Op lists, their hash, the emitter of x86-64 code, the compiler and the cache of compiled code.
Signed integers are words whose operations wrap. A float is given by its bits.

The compiler emits code for one op after the other, with zeros for the distances of jumps, and fills
these in at the end.
-/

import Mathlib.Data.Nat.Sqrt
import Mathlib.Order.Bounds.Basic
import Mathlib.Tactic.Linarith
import SmartOs.Math.LittleEndian

namespace SmartOs.Net.Jit

open Math BitVec

/-! ## Ops -/

inductive BuiltinFn where
  | sqrt
  | abs
  | floor
  | ceil
  | min
  | max
  deriving DecidableEq

/-- The number of the variant. -/
def BuiltinFn.toNat : BuiltinFn → ℕ
  | .sqrt => 0
  | .abs => 1
  | .floor => 2
  | .ceil => 3
  | .min => 4
  | .max => 5

inductive JitOp where
  | pushInt (v : BitVec 64)
  | pushFloat (bits : BitVec 64)
  | pop
  | addInt
  | subInt
  | mulInt
  | divInt
  | neg
  | cmpLt
  | cmpEq
  | cmpLe
  | jumpIfFalse (rel : BitVec 32)
  | jump (rel : BitVec 32)
  | return
  | loadLocal (idx : UInt32)
  | storeLocal (idx : UInt32)
  | callBuiltin (b : BuiltinFn)
  deriving DecidableEq

/-! ## Keys -/

abbrev FuncKey := BitVec 64

/-- What is hashed of an op: a tag, combined with the operand. -/
def JitOp.digest : JitOp → BitVec 64
  | .pushInt v => 1 ^^^ v
  | .pushFloat _ => 2
  | .pop => 3
  | .addInt => 4
  | .subInt => 5
  | .mulInt => 6
  | .divInt => 7
  | .neg => 8
  | .cmpLt => 9
  | .cmpEq => 10
  | .cmpLe => 11
  | .jumpIfFalse o => 12 ^^^ o.signExtend 64
  | .jump o => 13 ^^^ o.signExtend 64
  | .return => 14
  | .loadLocal i => 15 ^^^ BitVec.ofNat 64 i.toNat
  | .storeLocal i => 16 ^^^ BitVec.ofNat 64 i.toNat
  | .callBuiltin b => 17 ^^^ BitVec.ofNat 64 b.toNat

def fromOps (ops : List JitOp) : FuncKey :=
  ops.foldl (fun h op => (h ^^^ op.digest) * 0x100000001b3) 0xcbf29ce484222325

/-! ## Emitted bytes -/

namespace CodeBuf

def pushRax : List UInt8 := [0x50]
def popRax : List UInt8 := [0x58]
def popRbx : List UInt8 := [0x5B]
def movRaxImm64 (imm : BitVec 64) : List UInt8 := [0x48, 0xB8] ++ toLeBytes 8 imm.toNat
def addRaxRbx : List UInt8 := [0x48, 0x01, 0xD8]
def subRbxRax : List UInt8 := [0x48, 0x29, 0xC3] ++ [0x48, 0x89, 0xD8]
def imulRaxRbx : List UInt8 := [0x48, 0x0F, 0xAF, 0xC3]
def idivRbxRax : List UInt8 := [0x48, 0x93] ++ [0x48, 0x99] ++ [0x48, 0xF7, 0xFB]
def negRax : List UInt8 := [0x48, 0xF7, 0xD8]

/-- `cmp rbx, rax`, then a `set` of the low byte with the given opcode, which is extended. -/
def cmp (setcc : UInt8) : List UInt8 :=
  [0x48, 0x3B, 0xD8] ++ [0x0F, setcc, 0xC0] ++ [0x48, 0x0F, 0xB6, 0xC0]

def cmpLt : List UInt8 := cmp 0x9C
def cmpEq : List UInt8 := cmp 0x94
def cmpLe : List UInt8 := cmp 0x9E
def testRaxRax : List UInt8 := [0x48, 0x85, 0xC0]
def prologue : List UInt8 := [0x55] ++ [0x48, 0x89, 0xE5] ++ [0x53] ++ [0x41, 0x57]
def epilogue : List UInt8 := [0x41, 0x5F] ++ [0x5B] ++ [0x5D] ++ [0xC3]

end CodeBuf

open CodeBuf

/-! ## The compiler -/

/-- The number of local slots an op makes necessary. -/
def JitOp.slots : JitOp → Option UInt32
  | .loadLocal i | .storeLocal i => some (i + 1)
  | _ => none

def localCount (ops : List JitOp) : UInt32 := (ops.filterMap JitOp.slots).foldl max 0

def frameBytes (localCount : UInt32) : List UInt8 := toLeBytes 4 (localCount * 8).toNat

/-- Move the stack pointer by the size of the frame, down or up. -/
def subRspFrame (localCount : UInt32) : List UInt8 :=
  if localCount > 0 then [0x48, 0x81, 0xEC] ++ frameBytes localCount else []

def addRspFrame (localCount : UInt32) : List UInt8 :=
  if localCount > 0 then [0x48, 0x81, 0xC4] ++ frameBytes localCount else []

/-- The displacement of a local slot from `rbp`. -/
def localOffset (idx : UInt32) : List UInt8 :=
  toLeBytes 4 (-(BitVec.ofNat 32 (idx + 1).toNat * 8 + 16)).toNat

/-- What has been emitted: the code, the places of distances with the ops they lead to, and the
offsets of the ops. -/
structure Emitter where
  buf : List UInt8
  patchSites : List (ℕ × ℕ)
  opOffsets : List ℕ

def Emitter.emit (st : Emitter) (bytes : List UInt8) : Emitter :=
  { st with buf := st.buf ++ bytes }

/-- A distance that is not known yet. -/
def Emitter.emitPlaceholder (st : Emitter) (targetOp : ℕ) : Emitter :=
  { st with patchSites := st.patchSites ++ [(st.buf.length, targetOp)] }.emit [0, 0, 0, 0]

/-- The op that a jump from op `i` leads to. The sum is one of 32 bits. -/
def targetOp (i : ℕ) (rel : BitVec 32) : ℕ := ((BitVec.ofNat 32 i + 1 + rel).signExtend 64).toNat

def Emitter.emitOp (localCount : UInt32) (st : Emitter) (i : ℕ) (op : JitOp) :
    Except String Emitter :=
  let st := { st with opOffsets := st.opOffsets ++ [st.buf.length] }
  match op with
  | .pushInt v => .ok (st.emit (movRaxImm64 v ++ pushRax))
  | .pushFloat _ => .error "float not JIT-able in integer path"
  | .pop => .ok (st.emit popRax)
  | .addInt => .ok (st.emit (popRax ++ popRbx ++ addRaxRbx ++ pushRax))
  | .subInt => .ok (st.emit (popRax ++ popRbx ++ subRbxRax ++ pushRax))
  | .mulInt => .ok (st.emit (popRax ++ popRbx ++ imulRaxRbx ++ pushRax))
  | .divInt => .ok (st.emit (popRax ++ popRbx ++ idivRbxRax ++ pushRax))
  | .neg => .ok (st.emit (popRax ++ negRax ++ pushRax))
  | .cmpLt => .ok (st.emit (popRax ++ popRbx ++ cmpLt ++ pushRax))
  | .cmpEq => .ok (st.emit (popRax ++ popRbx ++ cmpEq ++ pushRax))
  | .cmpLe => .ok (st.emit (popRax ++ popRbx ++ cmpLe ++ pushRax))
  | .jumpIfFalse rel =>
    .ok ((st.emit (popRax ++ testRaxRax ++ [0x0F, 0x84])).emitPlaceholder (targetOp i rel))
  | .jump rel => .ok ((st.emit [0xE9]).emitPlaceholder (targetOp i rel))
  | .loadLocal idx => .ok (st.emit ([0x48, 0x8B, 0x85] ++ localOffset idx ++ pushRax))
  | .storeLocal idx => .ok (st.emit (popRax ++ [0x48, 0x89, 0x85] ++ localOffset idx))
  | .callBuiltin .abs =>
    .ok (st.emit (popRax ++ testRaxRax ++ [0x79, 0x03] ++ negRax ++ pushRax))
  | .callBuiltin .floor | .callBuiltin .ceil => .ok (st.emit (popRax ++ pushRax))
  | .callBuiltin .sqrt => .error "sqrt not in integer JIT"
  | .callBuiltin .min | .callBuiltin .max => .error "min/max need two-arg version"
  | .return => .ok (st.emit (popRax ++ addRspFrame localCount ++ epilogue))

/-- The ops from number `i` on. -/
def Emitter.emitOps (localCount : UInt32) (st : Emitter) (i : ℕ) :
    List JitOp → Except String Emitter
  | [] => .ok st
  | op :: ops =>
    match st.emitOp localCount i op with
    | .error message => .error message
    | .ok st => st.emitOps localCount (i + 1) ops

/-- Write a distance. -/
def patch (buf : List UInt8) (off : ℕ) (rel : BitVec 32) : List UInt8 :=
  let relBytes := toLeBytes 4 rel.toNat
  (((buf.set off (relBytes.getD 0 0)).set (off + 1) (relBytes.getD 1 0)).set (off + 2)
    (relBytes.getD 2 0)).set (off + 3) (relBytes.getD 3 0)

/-- Fill in a distance. The offsets end with that of the end of the code. -/
def patchSite (opOffsets : List ℕ) (buf : List UInt8) (site : ℕ × ℕ) : List UInt8 :=
  let targetCodeOff := opOffsets.getD site.2 buf.length
  patch buf site.1 (BitVec.ofInt 32 (targetCodeOff - (site.1 + 4)))

structure CompiledFunc where
  key : FuncKey
  code : List UInt8
  localCount : UInt32
  deriving DecidableEq

def compile (ops : List JitOp) : Except String CompiledFunc :=
  let count := localCount ops
  let start : Emitter := ⟨prologue ++ subRspFrame count, [], []⟩
  match start.emitOps count 0 ops with
  | .error message => .error message
  | .ok st =>
    let opOffsets := st.opOffsets ++ [st.buf.length]
    .ok ⟨fromOps ops, st.patchSites.foldl (patchSite opOffsets) st.buf, count⟩

/-! ## The cache -/

def hotThreshold : UInt32 := 50

structure JitCache where
  hotCounts : FuncKey → UInt32
  compiled : FuncKey → Option CompiledFunc

namespace JitCache

def new : JitCache := ⟨fun _ => 0, fun _ => none⟩

/-- Record a call. The result says whether the function has just been compiled. -/
def tick (cache : JitCache) (ops : List JitOp) : Bool × JitCache :=
  let key := fromOps ops
  let count := cache.hotCounts key + 1
  let cache := { cache with hotCounts := Function.update cache.hotCounts key count }
  if count = hotThreshold ∧ cache.compiled key = none then
    match compile ops with
    | .ok cf => (true, { cache with compiled := Function.update cache.compiled key (some cf) })
    | .error _ => (false, cache)
  else (false, cache)

def lookup (cache : JitCache) (ops : List JitOp) : Option CompiledFunc :=
  cache.compiled (fromOps ops)

end JitCache

/-! ## The interpreter -/

/-- The iteration of the integer square root. There is no result where the code divides by zero. -/
def sqrtLoop (a x y : BitVec 64) : Option (BitVec 64) :=
  if y.toInt < x.toInt then
    if y = 0 then none else sqrtLoop a y ((y + a.sdiv y).sdiv 2)
  else some x
termination_by (x.toInt + 2 ^ 63).toNat
decreasing_by
  have := y.le_toInt
  simp only [Nat.add_one_sub_one] at this
  omega

/-- What a vector of words can hold: it grows by doubling, and `isize::MAX` bounds its bytes. -/
def stackLimit : ℕ := 2 ^ 59

/-- The state of the interpreter. The top of the stack comes first. -/
structure Interp where
  pc : ℕ
  stack : List (BitVec 64)
  locals : List (BitVec 64)

namespace Interp

/-- On to the next op with this stack. -/
def next (s : Interp) (stack : List (BitVec 64)) : Interp :=
  { s with pc := s.pc + 1, stack }

/-- The same with a word pushed on that stack, if it can grow. -/
def push (s : Interp) (stack : List (BitVec 64)) (v : BitVec 64) : Option Interp :=
  if stack.length < stackLimit then some (s.next (v :: stack)) else none

def callBuiltin (s : Interp) (b : BuiltinFn) : Option Interp :=
  let a := s.stack.headD 0
  let stack := s.stack.tail
  match b with
  | .abs => s.push stack (if a.toInt < 0 then -a else a)
  | .floor | .ceil => s.push stack a
  | .sqrt =>
    if a.toInt < 0 then s.push stack 0
    else (sqrtLoop a a ((a + 1).sdiv 2)).bind (s.push stack)
  | .min =>
    let b2 := stack.headD 0
    s.push stack.tail (if b2.toInt < a.toInt then b2 else a)
  | .max =>
    let b2 := stack.headD 0
    s.push stack.tail (if b2.toInt > a.toInt then b2 else a)

end Interp

/-! ## The square root -/

/-- The pairs that the loop of the square root comes to. -/
inductive SqrtRound (a : BitVec 64) : (x y : BitVec 64) → Prop
  | start : SqrtRound a a ((a + 1).sdiv 2)
  | again {x y : BitVec 64} (round : SqrtRound a x y) (less : y.toInt < x.toInt) :
      SqrtRound a y ((y + a.sdiv y).sdiv 2)

/-- Before every round `x` is not below the root, and `y` is the mean of `x` and `a / x`. -/
structure SqrtMean (a x y : BitVec 64) : Prop where
  le : x.toNat ≤ a.toNat
  root : a.toNat.sqrt ≤ x.toNat
  mean_le : y.toNat ≤ a.toNat
  mean : y.toNat = (x.toNat + a.toNat / x.toNat) / 2

theorem sqrt_le_mean {a x : ℕ} (pos : 0 < x) : a.sqrt ≤ (x + a / x) / 2 := by
  have quotient : 2 * a.sqrt - x ≤ a / x := by
    rw [Nat.le_div_iff_mul_le pos, Nat.sub_mul, Nat.sub_le_iff_le_add]
    nlinarith [Nat.sqrt_le a, sq_nonneg ((x : ℤ) - a.sqrt)]
  omega

section

variable {a x y : BitVec 64}

theorem toInt_of_lt (small : x.toNat < 2 ^ 63) : x.toInt = x.toNat :=
  toInt_eq_toNat_of_lt (by omega)

theorem toNat_sdiv_of_lt (smallX : x.toNat < 2 ^ 63) (smallY : y.toNat < 2 ^ 63) :
    (x.sdiv y).toNat = x.toNat / y.toNat := by
  have msbX : x.msb = false := msb_eq_false_iff_two_mul_lt.mpr (by omega)
  have msbY : y.msb = false := msb_eq_false_iff_two_mul_lt.mpr (by omega)
  simp [sdiv_eq, msbX, msbY]

theorem toNat_half_add (small : x.toNat + y.toNat < 2 ^ 63) :
    ((x + y).sdiv 2).toNat = (x.toNat + y.toNat) / 2 := by
  have sum : (x + y).toNat = x.toNat + y.toNat := toNat_add_of_lt (by omega)
  rw [toNat_sdiv_of_lt (by omega) (by decide), sum]
  rfl

variable (small : a.toNat < 2 ^ 63 - 1)

include small

/-- Another round divides by a positive number, and its sum is in range. -/
theorem SqrtMean.next (h : SqrtMean a x y) (less : y.toInt < x.toInt) :
    0 < y.toNat ∧ y.toNat + (a.sdiv y).toNat ≤ a.toNat + 1 ∧
      SqrtMean a y ((y + a.sdiv y).sdiv 2) := by
  obtain ⟨le, -, mean_le, mean⟩ := h
  rw [toInt_of_lt (by omega), toInt_of_lt (by omega)] at less
  have root := @sqrt_le_mean a.toNat x.toNat (by omega)
  have some : 0 < a.toNat / x.toNat := Nat.div_pos le (by omega)
  have pos : 0 < y.toNat := by omega
  have quotient := @toNat_sdiv_of_lt a y (by omega) (by omega)
  have sum : y.toNat + a.toNat / y.toNat ≤ a.toNat + 1 := by
    nlinarith [Nat.div_pos mean_le pos, Nat.mul_div_le a.toNat y.toNat]
  rw [← quotient] at sum
  have half := @toNat_half_add y (a.sdiv y) (by omega)
  exact ⟨pos, sum, mean_le, by omega, by omega, by rw [half, quotient]⟩

theorem SqrtRound.mean (round : SqrtRound a x y) : SqrtMean a x y := by
  induction round with
  | start =>
    have half := @toNat_half_add a 1 (Nat.add_lt_of_lt_sub small)
    change _ = (a.toNat + 1) / 2 at half
    refine ⟨le_rfl, Nat.sqrt_le_self _, by omega, ?_⟩
    rcases Nat.eq_zero_or_pos a.toNat with zero | pos
    · rw [half, zero]
    · rw [half, Nat.div_self pos]
  | again _ less ih => exact (ih.next small less).2.2

theorem SqrtMean.loop (h : SqrtMean a x y) :
    sqrtLoop a x y = some (BitVec.ofNat 64 a.toNat.sqrt) := by
  fun_induction sqrtLoop a x y with
  | case1 x less => exact absurd (h.next small less).1 (by decide)
  | case2 x y less ne ih => exact ih (h.next small less).2.2
  | case3 x y stop =>
    obtain ⟨le, root, mean_le, mean⟩ := h
    rw [toInt_of_lt (by omega), toInt_of_lt (by omega)] at stop
    have square : x.toNat ≤ a.toNat / x.toNat := by omega
    have least := Nat.le_sqrt.mpr (Nat.mul_le_of_le_div _ _ _ square)
    rw [← Nat.le_antisymm least root, ofNat_toNat, setWidth_eq]

end

/-- The interpreter's square root is exact, and none of its sums leaves the range. -/
theorem callBuiltin_sqrt (s : Interp) (nonneg : 0 ≤ (s.stack.headD 0).toInt)
    (below : (s.stack.headD 0).toInt < 2 ^ 63 - 1) :
    let a := s.stack.headD 0
    a.saddOverflow 1 = false ∧
      (∀ x y, SqrtRound a x y → y.toInt < x.toInt → y ≠ 0 ∧ y.saddOverflow (a.sdiv y) = false) ∧
      ∃ x, IsGreatest {n : ℤ | n * n ≤ a.toInt} x.toInt ∧
        s.callBuiltin .sqrt = s.push s.stack.tail x := by
  intro a
  change 0 ≤ a.toInt at nonneg
  change a.toInt < _ at below
  have small : a.toNat < 2 ^ 63 - 1 := by
    have value := toInt_eq_toNat_cond a
    split_ifs at value <;> omega
  have value := @toInt_of_lt a (by omega)
  have root : (BitVec.ofNat 64 a.toNat.sqrt).toInt = a.toNat.sqrt := by
    have le := Nat.sqrt_le_self a.toNat
    rw [toInt_of_lt] <;> rw [toNat_ofNat, Nat.mod_eq_of_lt (by omega)]
    omega
  refine ⟨?_, fun x y round less => ?_, .ofNat 64 a.toNat.sqrt, ⟨?_, fun n square => ?_⟩, ?_⟩
  · simp [saddOverflow, value]
    omega
  · obtain ⟨pos, sum, -⟩ := (round.mean small).next small less
    refine ⟨fun zero => by simp [zero] at pos, ?_⟩
    simp [saddOverflow, @toInt_of_lt y (by omega), @toInt_of_lt (a.sdiv y) (by omega)]
    omega
  · rw [Set.mem_ofPred_eq, root, value]
    exact_mod_cast Nat.sqrt_le a.toNat
  · rw [Set.mem_ofPred_eq, value, ← Int.natAbs_mul_self] at square
    have := Nat.le_sqrt.mpr (Int.ofNat_le.mp square)
    omega
  · change (if a.toInt < 0 then _ else (sqrtLoop a a _).bind _) = _
    rw [if_neg (not_lt.mpr nonneg), (SqrtRound.start.mean small).loop small]
    rfl

theorem callBuiltin_sqrt_ten : ∃ x : BitVec 64, IsGreatest {n : ℤ | n * n ≤ 10} x.toInt ∧
    (Interp.mk 0 [10] []).callBuiltin .sqrt = (Interp.mk 0 [10] []).push [] x :=
  (callBuiltin_sqrt ⟨0, [10], []⟩ (by decide) (by decide)).2.2

end SmartOs.Net.Jit
