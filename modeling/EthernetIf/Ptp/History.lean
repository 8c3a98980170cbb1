import EthernetIf.Lib.Ledger
import EthernetIf.Ptp.Offset
import EthernetIf.Ptp.Update

/-!
# What the MAC is made to do to its time

The MAC sets its time when `TSSTI` is done and steps it when `TSSTU` is. The code can only set
these bits, in a read-modify-write that the MAC may step into, and another such read-modify-write
sets every bit again that it has read as one. So a command may well be carried out twice, and
that does happen to `TTSARU`. It does not happen to the two that change the time:

> in every run, whenever no function runs, the time has been changed once for each call of
> `portPTPSetTime` and `portPTPUpdateCoarse`, in the order of the calls — and once before them,
> by `ptp_init`, to zero.

The invariant is that no function returns, and none reads `ETH_PTPTSCR` to write it back, while
one of the two bits is set. What a change amounts to is another question, and `Ptp/Offset` has
the answer: the fields of the argument lose their signs one by one, so the changes are the ones
asked for exactly when no call of the run has fields of opposite signs.
-/

namespace EthernetIf

open Lts Outline

/-! ## The ledger -/

/-- A change of the MAC's time, in units of 2^-31 s. -/
inductive TimeChange
  | set (time : ℤ)
  | step (offset : ℤ)
deriving DecidableEq

/-- A change of the time by what `value` says of the argument. -/
def PtpFn.changes (value : PtpTime → ℤ) : PtpFn → List TimeChange
  | .ptpInit _ => [.set 0]
  | .portPTPSetTime t => [.set (value t)]
  | .portPTPUpdateCoarse t => [.step (value t)]
  | .portPTPUpdateFine _ => []

/-- The time a function is given. -/
def PtpFn.timestamp : PtpFn → Option PtpTime
  | .portPTPSetTime t | .portPTPUpdateCoarse t => some t
  | .ptpInit _ | .portPTPUpdateFine _ => none

/-! ## Assertions -/

section Rules

variable {l new : List TimeChange} {t : PtpTime} {p : List PtpStmt} {B : PtpLogged → Prop}

end Rules

end EthernetIf
