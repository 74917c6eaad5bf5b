/-!
# Powers

A power of natural numbers is the one of the core library in every module, also where a library is
imported that has powers of its own.
-/

attribute [instance (20000), default_instance 20000] instPowNat
