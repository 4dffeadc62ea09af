/-! Powers of natural numbers and of integers are the powers of the core library, whatever other
powers are in scope, so that the laws of the core library speak of them as they stand. -/

attribute [instance (10001), default_instance 10001] instPowNat
