import TinyUtils.Lib.Run
import TinyUtils.Lib.Threads
/-!
# `Singleton<T>::Instance`, C++11 variant (`cpp_utils/singleton.cpp:9-29`)

Double-checked locking over one spin flag `lock_`, which is a static of the file and so shared by all
singleton types. Each read or write of `lock_` or of an `instance_` is one atomic step, in program
order. The constructor of `A` runs inside `Instance` of `A`; it may call `Instance` of the types it
depends on, and it returns or throws, so a thread has a stack of calls.

| here | there |
| --- | --- |
| `Pc`, `exec`                    | the statements of `Instance` (`singleton.cpp:19-28`) |
| `Sys.flag`, `Sys.inst`          | `lock_` (`:9`), `instance_` of each type (`:38`) |
| `Step.nested`, `.built`, `.thrown` | what a constructor can do inside `new T(..)` (`:25`) |
| `Sys.made`, `Sys.rets`          | history: the constructions that returned, and what the calls returned |
-/

namespace TinyUtils.Singleton

open Function Threads

/-- The next statement of a call of `Instance`. -/
inductive Pc
  | check
  | fast
  | spin
  | recheck
  | construct
  | store (p : Nat)
  | clear
  | final
deriving DecidableEq, Repr

/-- Where a statement leaves the call: at a statement, or returned. -/
inductive Next
  | goto (pc : Pc)
  | ret (r : Option Nat)
deriving DecidableEq, Repr

/-- One statement of `Instance`, on `lock_` and the `instance_` of its type. Inside the constructor the
call makes no step of its own. -/
def exec (flag : Bool) (inst : Option Nat) : Pc → Option (Bool × Option Nat × Next)
  | .check => some (flag, inst, .goto (if inst ≠ none then .fast else .spin))
  | .fast => some (flag, inst, .ret inst)
  | .spin => some (true, inst, .goto (if flag then .spin else .recheck))
  | .recheck => some (flag, inst, .goto (if inst = none then .construct else .clear))
  | .construct => none
  | .store p => some (flag, some p, .goto .clear)
  | .clear => some (false, inst, .goto .final)
  | .final => some (flag, inst, .ret inst)

/-- A call of `Instance` of `ty` that has not returned. -/
structure Frame (Ty : Type) where
  ty : Ty
  pc : Pc
deriving DecidableEq, Repr

structure Sys (Ty Tid : Type) where
  flag : Bool
  inst : Ty → Option Nat
  stack : Tid → List (Frame Ty)
  made : Ty → Nat
  rets : List (Ty × Option Nat)

inductive Act (Ty Tid : Type)
  | call (t : Tid) (A : Ty)
  | exec (t : Tid)
  | nested (t : Tid) (B : Ty)
  | built (t : Tid) (p : Nat)
  | thrown (t : Tid)

variable {Ty Tid : Type} [DecidableEq Ty] [DecidableEq Tid]

def Sys.init : Sys Ty Tid := ⟨false, fun _ => none, fun _ => [], fun _ => 0, []⟩

/-- The stack of `t` becomes `fs`. -/
def Sys.put (s : Sys Ty Tid) (t : Tid) (fs : List (Frame Ty)) : Sys Ty Tid :=
  { s with stack := update s.stack t fs }

/-- The stack after a statement of its top call, which is of `A`. -/
def Next.stack (A : Ty) (rest : List (Frame Ty)) : Next → List (Frame Ty)
  | .goto pc => ⟨A, pc⟩ :: rest
  | .ret _ => rest

def Next.rets (A : Ty) (rs : List (Ty × Option Nat)) : Next → List (Ty × Option Nat)
  | .goto _ => rs
  | .ret r => (A, r) :: rs

/-- One step of one thread. `dep A B`: the constructor of `A` may call `Instance` of `B`. An exception
leaves `Instance` at once; the constructor that called it, if any, may catch it. -/
inductive Step (dep : Ty → Ty → Prop) : Sys Ty Tid → Act Ty Tid → Sys Ty Tid → Prop
  | call {s : Sys Ty Tid} {t : Tid} {A : Ty} : s.stack t = [] → Step dep s (.call t A) (s.put t [⟨A, .check⟩])
  | exec {s : Sys Ty Tid} {t : Tid} {A : Ty} {pc : Pc} {rest : List (Frame Ty)} {flag : Bool} {i : Option Nat}
      {n : Next} : s.stack t = ⟨A, pc⟩ :: rest → exec s.flag (s.inst A) pc = some (flag, i, n) →
      Step dep s (.exec t)
        { s.put t (n.stack A rest) with flag := flag, inst := update s.inst A i, rets := n.rets A s.rets }
  | nested {s : Sys Ty Tid} {t : Tid} {A B : Ty} {rest : List (Frame Ty)} :
      s.stack t = ⟨A, .construct⟩ :: rest → dep A B →
      Step dep s (.nested t B) (s.put t (⟨B, .check⟩ :: ⟨A, .construct⟩ :: rest))
  | built {s : Sys Ty Tid} {t : Tid} {A : Ty} {p : Nat} {rest : List (Frame Ty)} :
      s.stack t = ⟨A, .construct⟩ :: rest →
      Step dep s (.built t p) { s.put t (⟨A, .store p⟩ :: rest) with made := update s.made A (s.made A + 1) }
  | thrown {s : Sys Ty Tid} {t : Tid} {A : Ty} {rest : List (Frame Ty)} :
      s.stack t = ⟨A, .construct⟩ :: rest → Step dep s (.thrown t) (s.put t rest)

/-- The call has `lock_`: it is between its successful `test_and_set` and its `clear`. -/
def Frame.critical (f : Frame Ty) : Bool :=
  match f.pc with
  | .recheck | .construct | .store _ | .clear => true
  | _ => false

/-- The call is constructing its type, or has constructed it and not stored it. -/
def Frame.building (A : Ty) (f : Frame Ty) : Bool :=
  match f.pc with
  | .construct | .store _ => f.ty == A
  | _ => false

/-- The call has constructed its type and not stored it. -/
def Frame.storing (A : Ty) (f : Frame Ty) : Bool :=
  match f.pc with
  | .store _ => f.ty == A
  | _ => false

/-- The call is past every point where it could find `instance_` null. -/
def Frame.late (f : Frame Ty) : Bool :=
  match f.pc with
  | .fast | .clear | .final => true
  | _ => false

end TinyUtils.Singleton
