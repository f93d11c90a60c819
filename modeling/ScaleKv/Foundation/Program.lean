import Mathlib.Tactic.Common

namespace ScaleKv
namespace Foundation

/-!
# Programs over a service

A program makes requests to a service and ends with a result or with a fault.
What the service answers, and how its state changes, is said by a handler.
-/

/-- A program as the tree of its requests. -/
inductive Program (Request : Type) (Response : Request -> Type) (Fault : Type) (Value : Type)
  | result (value : Value)
  | fail (fault : Fault)
  | perform (request : Request) (next : Response request -> Program Request Response Fault Value)

namespace Program

variable {Request : Type} {Response : Request -> Type} {Fault First Second : Type}

def bind (program : Program Request Response Fault First)
    (next : First -> Program Request Response Fault Second) :
    Program Request Response Fault Second :=
  match program with
  | .result value => next value
  | .fail fault => .fail fault
  | .perform request rest => .perform request (fun answer => (rest answer).bind next)

instance monad : Monad (Program Request Response Fault) where
  pure := .result
  bind := bind

def request (asked : Request) : Program Request Response Fault (Response asked) :=
  .perform asked .result

/-- A computation that needs no service. -/
def ofExcept : Except Fault First -> Program Request Response Fault First
  | .ok value => .result value
  | .error fault => .fail fault

section Run

variable {State : Type} (handler : (request : Request) -> State -> Response request × State)

/-- The outcome and the state that is left, also behind a fault. -/
def run : Program Request Response Fault First -> State -> Except Fault First × State
  | .result value, state => (.ok value, state)
  | .fail fault, state => (.error fault, state)
  | .perform request next, state =>
    (next (handler request state).1).run (handler request state).2

variable {handler}

theorem run_bind (program : Program Request Response Fault First)
    (next : First -> Program Request Response Fault Second) (state : State) :
    (program >>= next).run handler state =
      match program.run handler state with
      | (.ok value, after) => (next value).run handler after
      | (.error fault, after) => (.error fault, after) := by
  induction program generalizing state with
  | result => rfl
  | fail => rfl
  | perform _ _ ih => exact ih _ _

variable {program : Program Request Response Fault First} {state after : State}

theorem run_bind_ok {value : First} (ran : program.run handler state = (.ok value, after))
    (next : First -> Program Request Response Fault Second) :
    (program >>= next).run handler state = (next value).run handler after := by
  rw [run_bind, ran]

theorem run_bind_error {fault : Fault} (ran : program.run handler state = (.error fault, after))
    (next : First -> Program Request Response Fault Second) :
    (program >>= next).run handler state = (.error fault, after) := by
  rw [run_bind, ran]

end Run

end Program

end Foundation
end ScaleKv
