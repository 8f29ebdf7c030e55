import Mathlib.Init

/-!
# The framework's common types

## Main definitions

* `AgcStatus`: the results of `agc_types.h` that the modelled functions return
-/

/-- `agc_status_t`. -/
inductive AgcStatus
  | success
  | false
  | memerr
  | generr
  | brk
  | sockerr
  | notInitialized
  deriving DecidableEq, Repr
