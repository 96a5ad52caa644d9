/-!
# `error_handling.h` — exceptions and the catch macros

Which exceptions the modelled code can throw or meet, and which clause of a
catch macro takes them. Only the dynamic type of an exception decides, so an
`Exn` carries its place in the hierarchy (`ExnKind`) and enough identity to
tell one exception from another.

`WAR_CATCH_ALL_E` ends in `catch(...)` and therefore takes everything
(`catchAllE_catches`). Its clauses log and do nothing else.
-/

namespace Warlib

/-- Where an exception stands: below `war::ExceptionBase` (which derives from
both `std::exception` and `boost::exception`), below one of these two only,
or a value of any other type. -/
inductive ExnKind
  | war
  | boost
  | std
  | other
  deriving DecidableEq, Repr

/-- The exceptions of the model. `capacityExceeded` is
`Pipeline::ExceptionCapacityExceeded` with its `exception_expl` text,
`futureError` the `std::future_error` of a promise that is satisfied twice,
and `user` whatever the functions handed to the library throw. -/
inductive Exn
  | capacityExceeded (expl : String)
  | futureError
  | user (kind : ExnKind) (tag : Nat)
  deriving DecidableEq, Repr

/-- The place of an exception in the hierarchy. -/
def Exn.kind : Exn → ExnKind
  | .capacityExceeded _ => .war
  | .futureError => .std
  | .user kind _ => kind

/-- The clauses the catch macros are made of. -/
inductive CatchClause
  | exceptionBase
  | boostException
  | stdException
  | any
  deriving DecidableEq, Repr

/-- Whether a clause takes an exception of a kind. -/
def CatchClause.catches : CatchClause → ExnKind → Bool
  | .exceptionBase, k => k == .war
  | .boostException, k => k == .war || k == .boost
  | .stdException, k => k == .war || k == .std
  | .any, _ => true

/-- `WAR_CATCH_ALL_E`: the clauses, in order. -/
def catchAllE : List CatchClause := [.exceptionBase, .boostException, .stdException, .any]

/-- The clause of a macro that takes an exception, if one does. -/
def handler (clauses : List CatchClause) (e : Exn) : Option CatchClause :=
  clauses.find? fun c => c.catches e.kind

/-- `WAR_CATCH_ALL_E` lets nothing through. -/
@[simp] theorem catchAllE_catches (e : Exn) : (handler catchAllE e).isSome = true := by
  cases e with
  | capacityExceeded => rfl
  | futureError => rfl
  | user kind tag => cases kind <;> rfl

end Warlib
