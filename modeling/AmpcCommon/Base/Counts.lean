import Mathlib.Algebra.GroupWithZero.Nat

/-!
# Parties and counters

The parties are numbered by `Fin 3`, the hosts a heartbeat asks by `Fin 2`, and ids and counters of `w` bits are the
elements of `Fin (2 ^ w)`. None of these types is empty, so their numerals have a meaning.
-/

namespace AmpcCommon

instance neZero_two : NeZero 2 := ⟨by decide⟩

instance neZero_three : NeZero 3 := ⟨by decide⟩

instance neZero_two_pow_16 : NeZero (2 ^ 16) := ⟨by decide⟩

instance neZero_two_pow_32 : NeZero (2 ^ 32) := ⟨by decide⟩

instance neZero_two_pow_128 : NeZero (2 ^ 128) := ⟨Nat.ne_of_gt (Nat.two_pow_pos 128)⟩

end AmpcCommon
