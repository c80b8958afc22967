/-!
# Faults

An operation that refuses its input reports an error of its domain. A fault is something else: the
operation has no answer at all and the program that asked for it stops. `Failure` is what an
operation with both outcomes ends in.
-/

namespace TypedReads

/-- Why an operation has no answer. -/
inductive Fault where
  /-- A value that has no text form stands where text is needed. -/
  | noText
  /-- A function or an object that is asked for a text stops with an exception of its own. -/
  | thrown
  /-- A comparison, a hash or a text runs around a cycle and never ends. -/
  | endless
  /-- A number of spaces is negative or too large for a text. -/
  | spacing
  /-- A flag has a name that every table of names answers to without holding it. -/
  | inheritedFlag
  deriving DecidableEq

/-- An error of the domain, or a fault. -/
inductive Failure (ε : Type) where
  | refused (error : ε)
  | fault (fault : Fault)
  deriving DecidableEq

end TypedReads
