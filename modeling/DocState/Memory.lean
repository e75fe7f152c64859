/-!
# Memory

Room for a long text is reserved before the text is written.  Whether there is room for so many bytes is decided by the
machine and not by the program.

* `Memory`: which lengths are granted.
* `Memory.upTo`: room for texts up to a length.
-/

namespace DocState

/-- The lengths in bytes for which room is granted; one that the machine cannot count is not.  Nothing else is known of
them: a length may be granted when a smaller one is not. -/
class Memory where
  grants : Nat → Bool

/-- Room for texts up to a length. -/
@[reducible]
def Memory.upTo (most : Nat) : Memory := ⟨fun length => decide (length ≤ most)⟩

end DocState
