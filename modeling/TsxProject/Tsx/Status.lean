import Mathlib.Data.BitVec

/-!
# Hardware transactions

The status words of `rtm.h`, the tests of `UtilFunctionsTSX.c` on them, and what can become of a
transaction. A transaction either takes effect as a whole or aborts without any effect, for a
reason of the hardware or by `_xabort`.
-/

namespace TsxProject.Tsx

/-- `_XBEGIN_STARTED` -/
def xbeginStarted : BitVec 32 := ~~~(0 : BitVec 32)

/-- `_XABORT_EXPLICIT` -/
def xabortExplicit : BitVec 32 := 1 <<< 0

/-- `_XABORT_RETRY` -/
def xabortRetry : BitVec 32 := 1 <<< 1

/-- `_XABORT_CODE` of an `int`, whose shift is an arithmetic one -/
def xabortCode (x : BitVec 32) : BitVec 32 := x.sshiftRight 24 &&& 0xff

/-- `TSX_EXPLICIT_ABORT_CODE` -/
def explicitAbortCode : BitVec 32 := 0xff

/-- `TSX_WasExplicitAbort` -/
def wasExplicitAbort (transactionStatus : BitVec 32) : Bool :=
  transactionStatus &&& xabortExplicit ≠ 0 && xabortCode transactionStatus = explicitAbortCode

/-- `TSX_IsRetryPossible` -/
def isRetryPossible (transactionStatus : BitVec 32) : Bool :=
  transactionStatus &&& xabortRetry ≠ 0

/-- What `_xbegin` returns after an abort: any word but the one of a started transaction. -/
structure AbortStatus where
  bits : BitVec 32
  ne_started : bits ≠ xbeginStarted
  deriving DecidableEq

/-- The status that `_xabort(0xff)` leaves. -/
def xabort : AbortStatus where
  bits := (0xff <<< 24) ||| xabortExplicit
  ne_started := by decide

example : wasExplicitAbort xabort.bits = true := by decide

/-- `_XABORT_RETRY` is never set together with `_XABORT_EXPLICIT`. -/
def AbortStatus.Hardware (st : AbortStatus) : Prop :=
  st.bits &&& xabortExplicit ≠ 0 → st.bits &&& xabortRetry = 0

instance (st : AbortStatus) : Decidable st.Hardware :=
  inferInstanceAs (Decidable (_ → _))

/-- What the hardware does with a transaction: let its body run to the end, or abort it somewhere
with some status. -/
inductive Outcome where
  | completes
  | aborts (st : AbortStatus)
  deriving DecidableEq

def Outcome.Hardware : Outcome → Prop
  | .completes => True
  | .aborts st => st.Hardware

instance : (o : Outcome) → Decidable o.Hardware
  | .completes => inferInstanceAs (Decidable True)
  | .aborts st => inferInstanceAs (Decidable st.Hardware)

theorem xabort_hardware : xabort.Hardware := by decide

/-- After an explicit abort there is no retry by the other test. -/
theorem AbortStatus.Hardware.not_retry {st : AbortStatus} (h : st.Hardware)
    (he : wasExplicitAbort st.bits = true) : isRetryPossible st.bits = false := by
  simp only [wasExplicitAbort, Bool.and_eq_true, decide_eq_true_eq] at he
  simp only [isRetryPossible, decide_eq_false_iff_not, not_not]
  exact h he.1

end TsxProject.Tsx
