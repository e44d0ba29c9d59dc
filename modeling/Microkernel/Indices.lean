/-
# Indices of tables

The tables of the kernel have a fixed number of places, and their indices are numbers below it.
That such a table is not empty gives its indices their numerals.
-/
import Mathlib

instance neZero_sixteen : NeZero 16 := ⟨by decide⟩

instance neZero_thirtyTwo : NeZero 32 := ⟨by decide⟩

instance neZero_sixtyFour : NeZero 64 := ⟨by decide⟩
