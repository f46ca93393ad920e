import Mathlib.Algebra.Notation.Defs

/-! The evaluator of `core/scheme/metamodel.go`, on the values that the parser and the evaluator
make: none of them has a `nil` interface inside. -/

namespace Ecco9.Scheme

/-- The primitives of `initializePrimitives`. -/
inductive Primitive
  | add | sub | cons | car | cdr
  deriving DecidableEq

def Primitive.name : Primitive → String
  | add => "+"
  | sub => "-"
  | cons => "cons"
  | car => "car"
  | cdr => "cdr"

/-- A lambda has its environment by its place in the store. -/
inductive Value (N : Type)
  | symbol (name : String)
  | number (value : N)
  | string (value : String)
  | boolean (value : Bool)
  | nil
  | cons (car cdr : Value N)
  | lambda (params : List String) (body : Value N) (env : Nat)
  | primitive (p : Primitive)
  deriving DecidableEq

inductive Form
  | quote | define | lambda | «if» | begin
  deriving DecidableEq

namespace Value

variable {N : Type}

mutual

def print [ToString N] : Value N → String
  | symbol name => name
  | number value => toString value
  | string value => "\"" ++ value ++ "\""
  | boolean value => if value then "#t" else "#f"
  | nil => "()"
  | cons car cdr => "(" ++ car.print ++ cdr.printTail ++ ")"
  | lambda params body _ => "(lambda [" ++ " ".intercalate params ++ "] " ++ body.print ++ ")"
  | primitive p => "<primitive:" ++ p.name ++ ">"

def printTail [ToString N] : Value N → String
  | nil => ""
  | cons car cdr => " " ++ car.print ++ cdr.printTail
  | symbol name => " . " ++ name
  | number value => " . " ++ toString value
  | string value => " . \"" ++ value ++ "\""
  | boolean value => " . " ++ if value then "#t" else "#f"
  | lambda params body _ => " . (lambda [" ++ " ".intercalate params ++ "] " ++ body.print ++ ")"
  | primitive p => " . <primitive:" ++ p.name ++ ">"

end

/-- The special form of an expression with this head. -/
def form? : Value N → Option Form
  | symbol name =>
    if name = "quote" then some .quote
    else if name = "define" then some .define
    else if name = "lambda" then some .lambda
    else if name = "if" then some .if
    else if name = "begin" then some .begin
    else none
  | _ => none

def isCons : Value N → Bool
  | cons _ _ => true
  | _ => false

def isTrue : Value N → Bool
  | boolean value => value
  | nil => false
  | _ => true

def extractParams : Value N → Except String (List String)
  | cons (symbol name) cdr => (extractParams cdr).map (name :: ·)
  | cons _ _ => .error "parameter must be a symbol"
  | nil => .ok []
  | _ => .error "invalid parameter list"

end Value

/-! ### Environments -/

structure Environment (N : Type) where
  bindings : List (String × Value N)
  parent : Option Nat

/-- The newest first; the place of an environment is the number of those older. -/
abbrev Store (N : Type) := List (Environment N)

variable {N : Type}

def Environment.define (env : Environment N) (name : String) (value : Value N) : Environment N :=
  { env with bindings := (name, value) :: env.bindings }

namespace Store

/-- An environment is older than those it is the parent of. -/
def lookup : Store N → Nat → String → Option (Value N)
  | [], _, _ => none
  | env :: older, place, name =>
    if place = older.length then
      (env.bindings.lookup name).or (env.parent.bind fun parent => lookup older parent name)
    else lookup older place name

def define : Store N → Nat → String → Value N → Store N
  | [], _, _, _ => []
  | env :: older, place, name, value =>
    if place = older.length then env.define name value :: older
    else env :: define older place name value

/-- The store with an environment that binds the parameters of a closure. -/
def enter (store : Store N) (env : Nat) (params : List String) (args : List (Value N)) : Store N :=
  (params.zip args).foldl (fun env p => env.define p.1 p.2) ⟨[], some env⟩ :: store

/-- The environment of a new metamodel. -/
def initial : Store N :=
  [[Primitive.add, .sub, .cons, .car, .cdr].foldl (fun env p => env.define p.name (.primitive p))
    ⟨[], none⟩]

end Store

/-! ### Primitives -/

section Primitives

variable [Zero N] [Add N] [Sub N]

def addAll (sum : N) : List (Value N) → Except String (Value N)
  | [] => .ok (.number sum)
  | .number value :: args => addAll (sum + value) args
  | _ :: _ => .error "+ requires numbers"

def subAll (result : N) : List (Value N) → Except String (Value N)
  | [] => .ok (.number result)
  | .number value :: args => subAll (result - value) args
  | _ :: _ => .error "- requires numbers"

def Primitive.fn : Primitive → List (Value N) → Except String (Value N)
  | add, args => addAll 0 args
  | sub, [] => .error "- requires at least one argument"
  | sub, .number value :: args => subAll value args
  | sub, _ :: _ => .error "- requires numbers"
  | cons, [x, y] => .ok (.cons x y)
  | cons, _ => .error "cons requires 2 arguments"
  | car, [.cons x _] => .ok x
  | car, [_] => .error "car requires a cons cell"
  | car, _ => .error "car requires 1 argument"
  | cdr, [.cons _ y] => .ok y
  | cdr, [_] => .error "cdr requires a cons cell"
  | cdr, _ => .error "cdr requires 1 argument"

end Primitives

/-! ### The evaluator -/

structure State (N : Type) where
  store : Store N
  /-- whether `Evaluator.mu` is held -/
  locked : Bool

/-- `stuck` is the wait for a lock that the same evaluation holds. -/
inductive Outcome (N α : Type)
  | done (result : Except String α) (s : State N)
  | stuck
  | timeout

namespace Outcome

variable {α β : Type}

def andThen (o : Outcome N α) (f : α → State N → Outcome N β) : Outcome N β :=
  match o with
  | done (.ok a) s => f a s
  | done (.error e) s => done (.error e) s
  | stuck => stuck
  | timeout => timeout

/-- The deferred `Unlock`, to a lock that was `held`. -/
def release (held : Bool) : Outcome N α → Outcome N α
  | done result s => done result { s with locked := held }
  | stuck => stuck
  | timeout => timeout

end Outcome

section Eval

variable [ToString N] [Zero N] [Add N] [Sub N]

/-- A nested `Eval`. -/
abbrev Nested (N : Type) := Value N → Nat → State N → Outcome N (Value N)

def evalQuote (s : State N) : Value N → Outcome N (Value N)
  | .cons datum _ => .done (.ok datum) s
  | _ => .done (.error "invalid quote form") s

def evalDefine (eval : Nested N) (env : Nat) (s : State N) : Value N → Outcome N (Value N)
  | .cons (.symbol name) (.cons e _) => (eval e env s).andThen fun value s =>
    .done (.ok value) { s with store := s.store.define env name value }
  | .cons (.symbol _) _ => .done (.error "invalid define form") s
  | .cons _ _ => .done (.error "define requires a symbol") s
  | _ => .done (.error "invalid define form") s

def evalLambda (env : Nat) (s : State N) : Value N → Outcome N (Value N)
  | .cons params rest =>
    match params.extractParams, rest with
    | .error e, _ => .done (.error e) s
    | .ok params, .cons body _ => .done (.ok (.lambda params body env)) s
    | .ok _, _ => .done (.error "invalid lambda form") s
  | _ => .done (.error "invalid lambda form") s

/-- The branches of an `if` whose condition is `cond`. -/
def evalBranch (eval : Nested N) (env : Nat) (cond : Value N) (s : State N) :
    Value N → Outcome N (Value N)
  | .cons e rest =>
    if cond.isTrue then eval e env s
    else
      match rest with
      | .cons e _ => eval e env s
      | _ => .done (.ok .nil) s
  | _ => .done (.error "invalid if form") s

def evalIf (eval : Nested N) (env : Nat) (s : State N) : Value N → Outcome N (Value N)
  | .cons c branches => (eval c env s).andThen fun cond s => evalBranch eval env cond s branches
  | _ => .done (.error "invalid if form") s

def evalBegin (eval : Nested N) (env : Nat) (result : Value N) (s : State N) :
    Value N → Outcome N (Value N)
  | .cons e rest => (eval e env s).andThen fun result s => evalBegin eval env result s rest
  | _ => .done (.ok result) s

def evalList (eval : Nested N) (env : Nat) (results : List (Value N)) (s : State N) :
    Value N → Outcome N (List (Value N))
  | .cons e rest =>
    (eval e env s).andThen fun result s => evalList eval env (results ++ [result]) s rest
  | .nil => .done (.ok results) s
  | _ => .done (.error "invalid list") s

def apply (eval : Nested N) (fn : Value N) (args : List (Value N)) (s : State N) :
    Outcome N (Value N) :=
  match fn with
  | .primitive p => .done (p.fn args) s
  | .lambda params body env =>
    if args.length = params.length then
      eval body s.store.length { s with store := s.store.enter env params args }
    else
      .done (.error s!"wrong number of arguments: expected {params.length}, got {args.length}") s
  | fn => .done (.error ("not a function: " ++ fn.print)) s

def evalCons (eval : Nested N) (env : Nat) (s : State N) (car cdr : Value N) :
    Outcome N (Value N) :=
  match car.form? with
  | some .quote => evalQuote s cdr
  | some .define => evalDefine eval env s cdr
  | some .lambda => evalLambda env s cdr
  | some .if => evalIf eval env s cdr
  | some .begin => evalBegin eval env .nil s cdr
  | none => (eval car env s).andThen fun fn s =>
    (evalList eval env [] s cdr).andThen fun args s => apply eval fn args s

/-- `Eval` with the lock held. -/
def evalLocked (eval : Nested N) (value : Value N) (env : Nat) (s : State N) :
    Outcome N (Value N) :=
  match value with
  | .symbol name =>
    match s.store.lookup env name with
    | some value => .done (.ok value) s
    | none => .done (.error ("undefined variable: " ++ name)) s
  | .cons car cdr => evalCons eval env s car cdr
  | value => .done (.ok value) s

/-- `Eval` with a bound on the nesting. Whether a holder of the lock may take it again is
`reentrant`: a Go mutex does not allow that. -/
def evalWith (reentrant : Bool) : Nat → Nested N
  | 0, _, _, _ => .timeout
  | depth + 1, value, env, s =>
    if s.locked && !reentrant then .stuck
    else (evalLocked (evalWith reentrant depth) value env { s with locked := true }).release s.locked

/-- `Evaluator.Eval`. -/
def eval (depth : Nat) : Nested N := evalWith false depth

end Eval

/-- The expressions that need a nested `Eval`. -/
def Value.nests : Value N → Bool
  | .cons car cdr =>
    match car.form?, cdr with
    | some .quote, _ | some .lambda, _ => false
    | some .define, .cons (.symbol _) (.cons _ _) => true
    | some .define, _ => false
    | some .if, cdr | some .begin, cdr => cdr.isCons
    | none, _ => true
  | _ => false

end Ecco9.Scheme
