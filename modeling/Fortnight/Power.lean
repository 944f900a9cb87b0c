/-!
# Powers

A power of a natural number or an integer is the one that is computed by
repeated multiplication, also where numbers are known as a monoid, with powers
of its own.
-/

attribute [instance (20000)] instPowNat instNatPowNat Int.instNatPow

attribute [default_instance 20000] instPowNat
