import Mathlib.Data.List.Basic

/-!
# `OfConfig.Netconf`: the libnetconf types of the server's interface

The operations, default operations, datastores, with-defaults modes
and errors that libnetconf hands to the server or takes from it, and
`Outcome`, the ways a call of the server can end.
-/

set_option autoImplicit false

namespace OfConfig

/-- `NC_NS_BASE10` -/
def ncNsBase10 : String := "urn:ietf:params:xml:ns:netconf:base:1.0"

/-- `NC_EDIT_OP_TYPE`: the values an `operation` attribute can have. -/
inductive EditOp where
  | merge
  | replace
  | create
  | delete
  | remove
deriving DecidableEq, Repr

/-- `NC_EDIT_DEFOP_TYPE` -/
inductive DefOp where
  | notset
  | merge
  | replace
  | none
deriving DecidableEq, Repr

/-- `NC_DATASTORE`, with one constructor for the values the server
treats as an error. -/
inductive Datastore where
  | error
  | config
  | url
  | running
  | startup
  | candidate
deriving DecidableEq, Repr

/-- `NCWD_MODE`: the basic mode of the with-defaults capability. -/
inductive WdMode where
  | all
  | trim
  | explicit
deriving DecidableEq, Repr

/-- `NC_ERR`: the error tags the server uses. -/
inductive ErrTag where
  | badElem
  | badAttr
  | missingElem
  | dataMissing
  | dataExists
  | invalidValue
  | lockDenied
  | opFailed
deriving DecidableEq, Repr

/-- `struct nc_err`: the tag and the parameters the server sets. -/
structure NcErr where
  tag : ErrTag
  badElem : Option String := none
  badAttr : Option String := none
  msg : Option String := none
  sid : Option String := none
deriving DecidableEq, Repr

/-- How a call without loops of its own ends. `failure` carries the error
structure when the callee filled one. `crash` stands for behaviour C
leaves undefined (a null or dangling pointer is used, a string literal
is freed). -/
inductive Reply where
  | success
  | failure (e : Option NcErr)
  | crash
deriving DecidableEq, Repr

/-- How a call of the server ends: as a `Reply`, or with `timeout` when a
loop has used up the rounds the model gives it. -/
inductive Outcome where
  | success
  | failure (e : Option NcErr)
  | crash
  | timeout
deriving DecidableEq, Repr

/-- A reply as the end of a longer call. -/
def Reply.outcome : Reply → Outcome
  | .success => .success
  | .failure e => .failure e
  | .crash => .crash

@[simp] theorem Reply.outcome_eq_success (r : Reply) : r.outcome = .success ↔ r = .success := by
  cases r <;> simp [Reply.outcome]

@[simp] theorem Reply.outcome_ne_timeout (r : Reply) : r.outcome ≠ .timeout := by
  cases r <;> simp [Reply.outcome]

/-- `EXIT_FAILURE` was returned. -/
def Outcome.isFailure : Outcome → Bool
  | .failure _ => true
  | _ => false

@[simp] theorem Outcome.isFailure_failure (e : Option NcErr) :
    (Outcome.failure e).isFailure = true := rfl

@[simp] theorem Outcome.isFailure_success : Outcome.success.isFailure = false := rfl

@[simp] theorem Outcome.isFailure_crash : Outcome.crash.isFailure = false := rfl

@[simp] theorem Outcome.isFailure_timeout : Outcome.timeout.isFailure = false := rfl

theorem Outcome.isFailure_iff (o : Outcome) : o.isFailure = true ↔ ∃ e, o = .failure e := by
  cases o <;> simp [Outcome.isFailure]

end OfConfig
