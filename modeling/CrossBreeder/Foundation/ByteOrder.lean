import Mathlib.Data.Nat.Basic
import Mathlib.Tactic.Ring

/-!
# Sixteen-bit integers in memory

A C program that reads a network packet through an `unsigned short *` sees its two bytes in the
order of the host. `ByteOrder.load` and `ByteOrder.store` are the two directions of that access, and
`ByteOrder.htons` is the conversion that makes a store produce network order.
-/

namespace CrossBreeder.Foundation

inductive ByteOrder
  | little
  | big
  deriving DecidableEq, Repr

/-- The high byte of a sixteen-bit value, the one that comes first in network order. -/
def highByte (value : UInt16) : UInt8 := UInt8.ofNat (value.toNat / 256)

def lowByte (value : UInt16) : UInt8 := UInt8.ofNat (value.toNat % 256)

def joinBytes (high low : UInt8) : UInt16 := UInt16.ofNat (high.toNat * 256 + low.toNat)

@[simp] theorem highByte_joinBytes (high low : UInt8) : highByte (joinBytes high low) = high := by
  have hhigh := high.toNat_lt
  have hlow := low.toNat_lt
  apply UInt8.toNat_inj.mp
  simp only [highByte, joinBytes, UInt8.toNat_ofNat', UInt16.toNat_ofNat']
  omega

@[simp] theorem lowByte_joinBytes (high low : UInt8) : lowByte (joinBytes high low) = low := by
  have hhigh := high.toNat_lt
  have hlow := low.toNat_lt
  apply UInt8.toNat_inj.mp
  simp only [lowByte, joinBytes, UInt8.toNat_ofNat', UInt16.toNat_ofNat']
  omega

@[simp] theorem joinBytes_highByte_lowByte (value : UInt16) :
    joinBytes (highByte value) (lowByte value) = value := by
  have hvalue := value.toNat_lt
  apply UInt16.toNat_inj.mp
  simp only [highByte, lowByte, joinBytes, UInt8.toNat_ofNat', UInt16.toNat_ofNat']
  omega

namespace ByteOrder

/-- The value a host reads from two consecutive bytes through an `unsigned short *`. -/
def load : ByteOrder → UInt8 → UInt8 → UInt16
  | .little, first, second => joinBytes second first
  | .big, first, second => joinBytes first second

/-- The two consecutive bytes a host writes through an `unsigned short *`. -/
def store : ByteOrder → UInt16 → UInt8 × UInt8
  | .little, value => (lowByte value, highByte value)
  | .big, value => (highByte value, lowByte value)

/-- `htons`: the value whose bytes in host memory are those of `value` in network order. -/
def htons (order : ByteOrder) (value : UInt16) : UInt16 :=
  order.load (highByte value) (lowByte value)

@[simp] theorem load_store (order : ByteOrder) (value : UInt16) :
    order.load (order.store value).1 (order.store value).2 = value := by
  cases order <;> simp [load, store]

@[simp] theorem store_load (order : ByteOrder) (first second : UInt8) :
    order.store (order.load first second) = (first, second) := by
  cases order <;> simp [load, store]

@[simp] theorem store_htons (order : ByteOrder) (value : UInt16) :
    order.store (order.htons value) = (highByte value, lowByte value) :=
  store_load order _ _

/-- A store without conversion writes network order exactly when the conversion leaves the value
unchanged. -/
theorem store_eq_network_iff (order : ByteOrder) (value : UInt16) :
    order.store value = (highByte value, lowByte value) ↔ order.htons value = value := by
  constructor
  · intro h
    have hload := load_store order value
    rw [h] at hload
    exact hload
  · intro h
    rw [← store_htons order value, h]

end ByteOrder

end CrossBreeder.Foundation
