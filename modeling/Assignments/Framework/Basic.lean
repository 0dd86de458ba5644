import Mathlib

/-!
# Literals of finite types

The models index with finite types of a few sizes. The sizes have instances with names here, so that
a literal of such a type is one and the same term in every module.
-/

namespace Framework

instance neZero_two : NeZero 2 := ⟨by decide⟩

instance neZero_fifty : NeZero 50 := ⟨by decide⟩

instance neZero_sixtyFour : NeZero 64 := ⟨by decide⟩

instance neZero_twoHundred : NeZero 200 := ⟨by decide⟩

instance neZero_byte : NeZero 256 := ⟨by decide⟩

end Framework
