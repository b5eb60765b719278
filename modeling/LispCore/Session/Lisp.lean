import LispCore.Session.Host

/-!
A host with three evaluators and six functions.

`echo` leaves a form as it is and `fail` fails with it. `lisp` is an evaluator with three special
forms: a symbol is looked up, a list whose head names a macro is expanded and evaluated, the lists
of `quote`, `def` and `apply` are treated by their own rules, any other list with a symbol as its
head calls the function of that name with its arguments evaluated from left to right, and everything
else is its own value.
-/

namespace LispCore.Lisp

/-- The evaluators. -/
inductive Evaluator where
  | echo
  | fail
  | lisp
deriving DecidableEq, Repr

/-- What is to be done with the value of the form in progress: to bind a key to it, or to take it as
the next argument of a call. Arguments are kept with the last one first. -/
inductive Frame where
  | definition (key : Value)
  | argument (name : String) (evaluated rest : List Value)

/-- Where an evaluation is: before a form, after one, before the list of a symbol of which it is
known whether it names a macro, or before the use of a function or a macro that was asked for. -/
inductive Task where
  | evaluate (form : Value) (stack : List Frame)
  | give (r : Except Error Value) (stack : List Frame)
  | dispatch (head : Symbol) (args : List Value) (isMacro : Bool) (stack : List Frame)
  | apply (f : Except Error Value) (args : List Value) (stack : List Frame)
  | expand (f : Except Error Value) (args : List Value) (stack : List Frame)
  | expanded (r : Except Error Value) (stack : List Frame)
  | fail (form : Value)

/-- Evaluates the arguments of a call in turn, and calls the function after the last one. -/
def nextArgument (name : String) (evaluated : List Value) (stack : List Frame) :
    List Value → Demand Task
  | [] => .ask (.function name) fun f => .apply f evaluated.reverse stack
  | form :: rest => .more (.evaluate form (.argument name evaluated rest :: stack))

/-- What the list of a head that names no macro stands for. -/
def special (head : String) (args : List Value) (stack : List Frame) : Demand Task :=
  match head, args with
  | "quote", form :: _ => .more (.give (.ok form) stack)
  | "def", key :: form :: _ => .more (.evaluate form (.definition key :: stack))
  | "apply", f :: .array items :: _ => .ask (.apply f items) fun r => .give r stack
  | "apply", f :: _ :: _ => .failed (.notApplicable f)
  | "quote", _ | "def", _ | "apply", _ => .failed .missingArgument
  | name, args => nextArgument name [] stack args

/-- What an evaluation does next. -/
def Task.next : Task → Demand Task
  | .evaluate form stack =>
    match form with
    | .symbol _ => .ask (.lookup form) fun r => .give r stack
    | .pair .. =>
      match form.toList with
      | .error e => .failed (.list e)
      | .ok (.symbol head :: args) =>
        .ask (.isMacro head) fun r => .dispatch head args (r matches .ok (.bool true)) stack
      | .ok _ => .more (.give (.ok form) stack)
    | v => .more (.give (.ok v) stack)
  | .give (.error e) _ => .failed e
  | .give (.ok v) [] => .finished v
  | .give (.ok v) (.definition key :: stack) => .ask (.define key v) fun r => .give r stack
  | .give (.ok v) (.argument name evaluated rest :: stack) =>
    nextArgument name (v :: evaluated) stack rest
  | .dispatch head args true stack => .ask (.expander head.name) fun f => .expand f args stack
  | .dispatch head args false stack => special head.name args stack
  | .apply (.error e) _ _ => .failed e
  | .apply (.ok f) args stack => .ask (.apply f args) fun r => .give r stack
  | .expand (.error e) _ _ => .failed e
  | .expand (.ok f) args stack => .ask (.apply f args) fun r => .expanded r stack
  | .expanded (.error e) _ => .failed e
  | .expanded (.ok form) stack => .more (.evaluate form stack)
  | .fail form => .failed (.interrupted ("evaluation failed: " ++ form.print))

/-- The functions. -/
inductive Function where
  | args
  | name
  | count
  | reverse
  | fail
  | define
deriving DecidableEq, Repr

/-- What a function answers. -/
def Function.reply (f : Function) (name : String) (args : List Value) : Reply :=
  match f with
  | .args => .value (.array args)
  | .name => .value (.str name)
  | .count => .value (.int args.length)
  | .reverse => .value (.ofList args.reverse)
  | .fail => .failed (.reported (name ++ " failed"))
  | .define =>
    match args with
    | key :: v :: _ => .define key v
    | _ => .failed .missingArgument

/-- The host. -/
def host : Host where
  Evaluator := Evaluator
  Task := Task
  start
    | .echo, form => .give (.ok form) []
    | .fail, form => .fail form
    | .lisp, form => .evaluate form []
  next := Task.next
  Function := Function
  reply := Function.reply

end LispCore.Lisp
