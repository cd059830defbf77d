import Mathlib.Data.Int.Notation

/-!
# `Monitoring.Lib.MachineInt`: fixed-width integers as residues

`u32`, `i32` and `u64` are the conversions to `unsigned int`, `int` and `unsigned long` of a
64-bit C++ compiler: the representative of the residue class in the type's range. Arithmetic in
one of these types is the arithmetic of `Int` under the conversion. In range each is the
identity.
-/

set_option autoImplicit false

namespace Monitoring.Lib

/-- Conversion to `unsigned int`. -/
def u32 (x : Int) : Int := x % 4294967296

/-- Conversion to `int`. -/
def i32 (x : Int) : Int := (x + 2147483648) % 4294967296 - 2147483648

/-- Conversion to `unsigned long`. -/
def u64 (x : Int) : Int := x % 18446744073709551616

theorem u32_of_lt {x : Int} (h0 : 0 ≤ x) (h : x < 4294967296) : u32 x = x :=
  Int.emod_eq_of_lt h0 h

theorem i32_of_lt {x : Int} (h0 : -2147483648 ≤ x) (h : x < 2147483648) : i32 x = x := by
  unfold i32
  omega

theorem u64_of_lt {x : Int} (h0 : 0 ≤ x) (h : x < 18446744073709551616) : u64 x = x :=
  Int.emod_eq_of_lt h0 h

end Monitoring.Lib
