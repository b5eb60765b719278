import LispCore.Session.Error

/-!
Hosts: where evaluators and functions come from.

An evaluator turns a form into a task, and a task goes on step by step: it ends with a value or an
error, or it asks the session that it runs in for something and goes on with the answer. So an
evaluation can wait for a channel in the middle, and others can run meanwhile. A function of the
host answers a call at once.
-/

namespace LispCore

/-- What an evaluation may ask its session for: what a key is bound to, to bind a key, whether a
symbol names a macro, the function or the macro of a name, and to apply a function or a macro. -/
inductive Request where
  | lookup (key : Value)
  | define (key v : Value)
  | isMacro (s : Symbol)
  | function (name : String)
  | expander (name : String)
  | apply (f : Value) (args : List Value)

/-- What a task does next. -/
inductive Demand (Task : Type) where
  | more (task : Task)
  | finished (v : Value)
  | failed (e : Error)
  | ask (request : Request) (resume : Except Error Value → Task)

/-- The answer of a function of the host: a value, an error, or null once a key is bound. -/
inductive Reply where
  | value (v : Value)
  | failed (e : Error)
  | define (key v : Value)

/-- Evaluators and functions that sessions can be given. -/
structure Host where
  Evaluator : Type
  Task : Type
  /-- The task of evaluating a form. -/
  start : Evaluator → Value → Task
  /-- What a task does next. -/
  next : Task → Demand Task
  Function : Type
  /-- What a function answers when it is called by a name with arguments. -/
  reply : Function → String → List Value → Reply

end LispCore
