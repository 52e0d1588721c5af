import TinyUtils.Lib.Run
import Mathlib.Logic.Function.Basic
/-!
# A lock that is held by many or by one

The specification of a readers/writer lock for any parties: a hold is shared or exclusive, and is granted where no hold is
in its way. A party may be refused too, but only where a hold is in its way (`Step.refuse`). What the lock does to
parties that were refused is no part of this.
-/

namespace Sharing

open Function

variable {Tid : Type}

inductive Mode
  | shared | exclusive
deriving DecidableEq, Repr

/-- The holds of each party. -/
abbrev Holds (Tid : Type) := Tid → Mode → Nat

/-- No hold is in the way of one of this mode. -/
def Free (h : Holds Tid) : Mode → Prop
  | .shared => ∀ t, h t .exclusive = 0
  | .exclusive => ∀ t m, h t m = 0

inductive Op (Tid : Type)
  | grant (t : Tid) (m : Mode)
  | refuse (t : Tid) (m : Mode)
  | give (t : Tid) (m : Mode)
deriving DecidableEq, Repr

variable [DecidableEq Tid]

def gain (h : Holds Tid) (t : Tid) (m : Mode) : Holds Tid := update h t (update (h t) m (h t m + 1))

/-- The step that takes no operation is `none`. -/
inductive Step : Holds Tid → Option (Op Tid) → Holds Tid → Prop
  | grant {h : Holds Tid} {t : Tid} {m : Mode} : Free h m → Step h (some (.grant t m)) (gain h t m)
  | refuse {h : Holds Tid} {t : Tid} {m : Mode} : ¬ Free h m → Step h (some (.refuse t m)) h
  | give {h : Holds Tid} {t : Tid} {m : Mode} : Step (gain h t m) (some (.give t m)) h
  | stay {h : Holds Tid} : Step h none h

end Sharing
