import Mathlib.Data.BitVec
import Mathlib.Logic.Function.Basic

/-! The types, constants and arithmetic helpers of `emu.h`. -/

namespace RiscvEmu

/-- `uint_t`. -/
abbrev Word := BitVec 64

/-- `uint8_t`. -/
abbrev Byte := BitVec 8

def mask64 : Word := 0xFFFFFFFFFFFFFFFF
def mask32 : Word := 0xFFFFFFFF

def fifoAddrRx : Word := 0xe000102c
def fifoAddrTx : Word := 0xe0001030
def dramBase : Word := 0x80000000
def dramSize : Word := 1 <<< 28 * 8
def clintBase : Word := 0x2000000
def clintSize : Word := 0x00c0000
def plicBase : Word := 0x40100000
def plicSize : Word := 0x400000
def virtioBase : Word := 0x40010000
def virtioSize : Word := 0x1000
def plicHartBase : Word := 0x200000

/-- `plevel_t`. -/
inductive Plevel
  | umode | smode | hmode | mmode
  deriving DecidableEq, Repr

/-- The enumerator's value, as the assignments to `mpp` and `spp` store it. -/
def Plevel.code : Plevel → Byte
  | .umode => 0b00
  | .smode => 0b01
  | .hmode => 0b10
  | .mmode => 0b11

/-- The cast `(plevel_t) x`; the enumeration has two value bits. -/
def Plevel.ofByte (x : Byte) : Plevel :=
  match (x &&& 0b11).toNat with
  | 0 => .umode
  | 1 => .smode
  | 2 => .hmode
  | _ => .mmode

def causeMisalignedFetch : Word := 0x0
def causeFetchAccess : Word := 0x1
def causeIllegalInstruction : Word := 0x2
def causeBreakpoint : Word := 0x3
def causeMisalignedLoad : Word := 0x4
def causeLoadAccess : Word := 0x5
def causeMisalignedStore : Word := 0x6
def causeUserEcall : Word := 0x8
def causeSupervisorEcall : Word := 0x9
def causeMachineEcall : Word := 0xb
def causeFetchPageFault : Word := 0xc
def causeLoadPageFault : Word := 0xd
def causeStorePageFault : Word := 0xf

def causeUserSoftInt : Word := 0x0
def causeSupervisorSoftInt : Word := 0x1
def causeMachineSoftInt : Word := 0x3
def causeUserTimerInt : Word := 0x4
def causeSupervisorTimerInt : Word := 0x5
def causeMachineTimerInt : Word := 0x7
def causeUserExtInt : Word := 0x8
def causeSupervisorExtInt : Word := 0x9
def causeMachineExtInt : Word := 0xb

/-- How the program ends: `exit(n)`, the `break` out of `while (1)`, a `std::out_of_range` that
nothing catches, or control running off the end of a function whose value is used. -/
inductive Halt
  | exit (status : Nat)
  | leave
  | outOfRange
  | undefined
  deriving DecidableEq, Repr

def signExtend (x : Word) (bits : Nat) : Word :=
  let m : Word := 1 <<< (bits - 1)
  (x ^^^ m) - m

/-- `signed_value`: the `int64_t` is given by its value. -/
def signedValue (x : Word) : Int :=
  if (x >>> 63) &&& 0b1 = 1 then ((x ^^^ (1 <<< 63)) - (1 <<< 63)).toInt else x.toInt

/-- `signed_value32`: the `int32_t` is given by its value. -/
def signedValue32 (x : Word) : Int :=
  let y := x &&& mask32
  if (y >>> 31) &&& 0b1 = 1 then (((y ^^^ (1 <<< 31)) - (1 <<< 31)).setWidth 32).toInt
  else (y.setWidth 32).toInt

/-- The C integer types at which `divi` and `divi32` are instantiated. -/
structure CInt where
  bits : Nat
  signed : Bool

def int64 : CInt := ⟨64, true⟩
def uint64 : CInt := ⟨64, false⟩
def int32 : CInt := ⟨32, true⟩
def uint32 : CInt := ⟨32, false⟩

/-- Conversion of a value to the type, modulo `2 ^ bits`. -/
def CInt.wrap (t : CInt) (x : Int) : Int :=
  if t.signed then (BitVec.ofInt t.bits x).toInt else (BitVec.ofInt t.bits x).toNat

/-- Conversion to `double`: 53 significant bits, ties to even. -/
def toDouble (n : Int) : Int :=
  let m := n.natAbs
  let e := Nat.log2 m - 52
  if e = 0 then n
  else
    let q := m / 2 ^ e
    let r := m % 2 ^ e
    let up := 2 ^ (e - 1) < r ∨ (r = 2 ^ (e - 1) ∧ q % 2 = 1)
    n.sign * (((if up then q + 1 else q) * 2 ^ e : Nat) : Int)

/-- `divi<T>`; no value where control runs off the end of the function. -/
def divi (t : CInt) (num1 num2 : Int) (s : Nat) : Option Int :=
  if num2 = 0 then
    match s with
    | 0 => some (t.wrap (-1))
    | 1 => some (t.wrap mask64.toNat)
    | 2 => some num1
    | 3 => some num1
    | _ => none
  else if toDouble num1 = -2 ^ 63 ∧ num2 = t.wrap (-1) then
    match s with
    | 0 => some (t.wrap (-2 ^ 63))
    | 2 => some 0
    | _ => none
  else
    match s with
    | 0 => some (t.wrap ((int64.wrap num1).tdiv (int64.wrap num2)))
    | 1 => some (num1.tdiv num2)
    | 2 => some (t.wrap ((int64.wrap num1).tmod (int64.wrap num2)))
    | 3 => some (num1.tmod num2)
    | _ => none

def divi32 (t : CInt) (num1 num2 : Int) (s : Nat) : Option Int :=
  if num2 = 0 then
    match s with
    | 0 => some (t.wrap (-1))
    | 1 => some (t.wrap mask32.toNat)
    | 2 => some num1
    | 3 => some num1
    | _ => none
  else if toDouble num1 = -2 ^ 31 ∧ num2 = t.wrap (-1) then
    match s with
    | 0 => some (t.wrap (-2 ^ 31))
    | 2 => some 0
    | _ => none
  else
    match s with
    | 0 => some (t.wrap ((int32.wrap num1).tdiv (int32.wrap num2)))
    | 1 => some (num1.tdiv num2)
    | 2 => some (t.wrap ((int32.wrap num1).tmod (int32.wrap num2)))
    | 3 => some (num1.tmod num2)
    | _ => none

end RiscvEmu
