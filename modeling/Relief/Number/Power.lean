/-!
# Powers

The powers of naturals and integers are the ones of the core library, in the program and in what is
proved about it: the algebra that proofs import brings other ones.
-/

attribute [instance (2000), default_instance 20000] instPowNat
