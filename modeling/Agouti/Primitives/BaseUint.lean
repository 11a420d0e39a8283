import Agouti.Library.Limbs
import Agouti.Library.Loop

/-! # The limbs of `base_uint`

The operators of `uint256.h` and `uint256.cpp` over an array `pn` of `WIDTH` words of 32 bits, the
lowest first, with carries of 64 bits. The right operand of an assignment is passed by reference, so
it can be the number that is assigned to; its limbs are then read as they are at that moment.
-/

namespace Agouti

/-- A number of `WIDTH` limbs. -/
structure BaseUint (WIDTH : Nat) where
  pn : Vector (BitVec 32) WIDTH
deriving DecidableEq

/-- A right operand: another number, or the one that is assigned to. -/
inductive Operand (WIDTH : Nat) where
  | other (b : BaseUint WIDTH)
  | this

variable {WIDTH : Nat}

/-- The operand, while the number on the left is `self`. -/
def Operand.read (self : BaseUint WIDTH) : Operand WIDTH → BaseUint WIDTH
  | .other b => b
  | .this => self

namespace BaseUint

/-- A limb that is read; the loops read those below `WIDTH`. -/
def limb (a : BaseUint WIDTH) (i : Nat) : BitVec 32 := a.pn[i]?.getD 0

/-- The number in the limbs below `count`. -/
def low (a : BaseUint WIDTH) (count : Nat) : Nat :=
  Limbs.value 32 (fun i => (a.limb i).toNat) count

def toNat (a : BaseUint WIDTH) : Nat := a.low WIDTH

/-- `pn[i] = word`. -/
def set (a : BaseUint WIDTH) (i : Nat) (inside : i < WIDTH) (word : BitVec 32) : BaseUint WIDTH :=
  ⟨a.pn.set i word inside⟩

/-- `pn[i] |= word`. -/
def orLimb (a : BaseUint WIDTH) (i : Nat) (inside : i < WIDTH) (word : BitVec 32) : BaseUint WIDTH :=
  a.set i inside (a.limb i ||| word)

/-- `base_uint()`. -/
def zero : BaseUint WIDTH := ⟨Vector.replicate WIDTH 0⟩

/-- `operator=(uint64_t)`, which writes two limbs whatever the width. -/
def assign (b : BitVec 64) : Option (BaseUint WIDTH) :=
  if inside : 1 < WIDTH then
    some ((zero.set 0 (Nat.zero_lt_of_lt inside) (b.setWidth 32)).set 1 inside
      ((b >>> 32).setWidth 32))
  else none

/-- The variables of a loop with a carry. -/
structure Carried (WIDTH : Nat) where
  number : BaseUint WIDTH
  carry : BitVec 64

/-- `pn[i] = n & 0xffffffff; carry = n >> 32`. -/
def Carried.put (s : Carried WIDTH) (i : Nat) (inside : i < WIDTH) (n : BitVec 64) :
    Carried WIDTH :=
  ⟨s.number.set i inside (n.setWidth 32), n >>> 32⟩

/-- `operator+=`. -/
def addAssign (a : BaseUint WIDTH) (b : Operand WIDTH) : BaseUint WIDTH :=
  (Nat.fold WIDTH (fun i inside (s : Carried WIDTH) =>
    s.put i inside (s.carry + (s.number.limb i).setWidth 64 +
      ((b.read s.number).limb i).setWidth 64)) ⟨a, 0⟩).number

/-- `operator~`. -/
def complement (a : BaseUint WIDTH) : BaseUint WIDTH := ⟨a.pn.map (~~~ ·)⟩

/-- The loop of the prefix `operator++` from limb `i` on, which goes up at most `rest` limbs. -/
def incrementFrom : Nat → Nat → BaseUint WIDTH → BaseUint WIDTH
  | 0, _, a => a
  | rest + 1, i, a =>
    if inside : i < WIDTH then
      let a := a.set i inside (a.limb i + 1)
      if a.limb i = 0 ∧ i < WIDTH - 1 then incrementFrom rest (i + 1) a else a
    else a

/-- `operator++`. -/
def increment (a : BaseUint WIDTH) : BaseUint WIDTH := incrementFrom WIDTH 0 a

/-- The unary `operator-`. -/
def neg (a : BaseUint WIDTH) : BaseUint WIDTH := a.complement.increment

/-- `operator-=`. -/
def subAssign (a : BaseUint WIDTH) (b : Operand WIDTH) : BaseUint WIDTH :=
  a.addAssign (.other (b.read a).neg)

/-- `operator+=(uint64_t)`. -/
def addWordAssign (a : BaseUint WIDTH) (b64 : BitVec 64) : Option (BaseUint WIDTH) :=
  (assign b64).map fun b => a.addAssign (.other b)

/-- `operator-=(uint64_t)`. -/
def subWordAssign (a : BaseUint WIDTH) (b64 : BitVec 64) : Option (BaseUint WIDTH) :=
  (assign b64).map fun b => a.addAssign (.other b.neg)

/-- `operator*=(uint32_t)`. -/
def mulWordAssign (a : BaseUint WIDTH) (b32 : BitVec 32) : BaseUint WIDTH :=
  (Nat.fold WIDTH (fun i inside (s : Carried WIDTH) =>
    s.put i inside (s.carry + b32.setWidth 64 * (s.number.limb i).setWidth 64)) ⟨a, 0⟩).number

/-- The inner loop of `operator*=`. -/
def mulRow (factor : BitVec 32) (b : Operand WIDTH) (j : Nat) (a : BaseUint WIDTH) :
    BaseUint WIDTH :=
  (Nat.fold (WIDTH - j) (fun i inside (s : Carried WIDTH) =>
    s.put (i + j) (by omega) (s.carry + (s.number.limb (i + j)).setWidth 64 +
      factor.setWidth 64 * ((b.read s.number).limb i).setWidth 64)) ⟨a, 0⟩).number

/-- `operator*=`; the number is zero when the loops begin, also where they read it as `b`. -/
def mulAssign (a : BaseUint WIDTH) (b : Operand WIDTH) : Option (BaseUint WIDTH) :=
  (assign 0).map fun start => Nat.fold WIDTH (fun j _ s => mulRow (a.limb j) b j s) start

/-- `if (p) pn[i] |= word`. -/
def orIf (a : BaseUint WIDTH) (p : Prop) [Decidable p] (i : Nat) (inside : p → i < WIDTH)
    (word : BitVec 32) : BaseUint WIDTH :=
  if holds : p then a.orLimb i (inside holds) word else a

/-- `operator<<=`. -/
def shiftLeftAssign (a : BaseUint WIDTH) (shift : Nat) : BaseUint WIDTH :=
  let k := shift / 32
  let shift := shift % 32
  Nat.fold WIDTH (fun i _ s =>
    (s.orIf (i + k + 1 < WIDTH ∧ shift ≠ 0) (i + k + 1) And.left (a.limb i >>> (32 - shift))).orIf
      (i + k < WIDTH) (i + k) id (a.limb i <<< shift)) zero

/-- `operator>>=`. -/
def shiftRightAssign (a : BaseUint WIDTH) (shift : Nat) : BaseUint WIDTH :=
  let k := shift / 32
  let shift := shift % 32
  Nat.fold WIDTH (fun i inside s =>
    (s.orIf (k + 1 ≤ i ∧ shift ≠ 0) (i - k - 1) (fun _ => by omega)
      (a.limb i <<< (32 - shift))).orIf
      (k ≤ i) (i - k) (fun _ => by omega) (a.limb i >>> shift)) zero

/-- The loop of `CompareTo` over the limbs below `count`. -/
def compareFrom (a b : BaseUint WIDTH) : Nat → Int
  | 0 => 0
  | i + 1 =>
    if a.limb i < b.limb i then -1
    else if a.limb i > b.limb i then 1
    else compareFrom a b i

def compareTo (a b : BaseUint WIDTH) : Int := compareFrom a b WIDTH

/-- The inner loop of `bits`, from bit `bits` down. -/
def topBit (word : BitVec 32) : Nat → Nat
  | 0 => 1
  | bits + 1 => if word &&& 1#32 <<< (bits + 1) ≠ 0 then bits + 1 + 1 else topBit word bits

/-- The loop of `bits` over the limbs below `count`. -/
def bitsFrom (a : BaseUint WIDTH) : Nat → Nat
  | 0 => 0
  | pos + 1 =>
    if a.limb pos ≠ 0 then 32 * pos + topBit (a.limb pos) 31 else bitsFrom a pos

def bits (a : BaseUint WIDTH) : Nat := bitsFrom a WIDTH

/-- What keeps an operator from a result: a thrown `uint_error`, or a write behind the array. -/
inductive Failure where
  | uintError (what : String)
  | outside

/-- The variables of the loop of `operator/=`. -/
structure Division (WIDTH : Nat) where
  quotient : BaseUint WIDTH
  num : BaseUint WIDTH
  div : BaseUint WIDTH
  shift : Int

/-- A round of the loop of `operator/=`. -/
def Division.round (s : Division WIDTH) : Division WIDTH ⊕ Except Failure (BaseUint WIDTH) :=
  if s.shift < 0 then .inr (.ok s.quotient)
  else if 0 ≤ s.num.compareTo s.div then
    if inside : s.shift.toNat / 32 < WIDTH then
      .inl {
        quotient := s.quotient.orLimb (s.shift.toNat / 32) inside (1#32 <<< (s.shift.toNat % 32))
        num := s.num.subAssign (.other s.div)
        div := s.div.shiftRightAssign 1
        shift := s.shift - 1 }
    else .inr (.error .outside)
  else .inl { s with div := s.div.shiftRightAssign 1, shift := s.shift - 1 }

/-- `operator/=` up to its loop, or to a result before it. -/
def divStart (a : BaseUint WIDTH) (b : Operand WIDTH) :
    Division WIDTH ⊕ Except Failure (BaseUint WIDTH) :=
  let div := b.read a
  let num := a
  match assign 0 with
  | none => .inr (.error .outside)
  | some quotient =>
    let num_bits := num.bits
    let div_bits := div.bits
    if div_bits = 0 then .inr (.error (.uintError "Division by zero"))
    else if div_bits > num_bits then .inr (.ok quotient)
    else
      let shift := num_bits - div_bits
      .inl { quotient, num, div := div.shiftLeftAssign shift, shift }

/-- `operator/=` comes to an end with a result. -/
def DivReturns (a : BaseUint WIDTH) (b : Operand WIDTH)
    (result : Except Failure (BaseUint WIDTH)) : Prop :=
  match a.divStart b with
  | .inl start => Loop.Returns Division.round start result
  | .inr other => other = result

end BaseUint

end Agouti
