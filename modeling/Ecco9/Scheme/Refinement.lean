import Ecco9.Scheme.Evaluator
import Mathlib.Algebra.Ring.Int.Defs
import Mathlib.Order.Filter.AtTopBot.Basic
import Mathlib.Order.Filter.Tendsto

/-! The evaluation that the metamodel is for, as a big-step relation without a lock, in which arguments are
evaluated from left to right and the first error ends an evaluation; and the evaluator against it: it is
right with a lock that its holder may take again, and with the lock that it has on the expressions that
need no nested `Eval` only. -/

namespace Ecco9.Scheme

section

variable {N : Type}

/-- What is wrong with a special form before anything of it is evaluated. -/
def Form.malformed : Form → Value N → Option String
  | quote, .cons _ _ => none
  | quote, _ => some "invalid quote form"
  | define, .cons (.symbol _) (.cons _ _) => none
  | define, .cons (.symbol _) _ => some "invalid define form"
  | define, .cons _ _ => some "define requires a symbol"
  | define, _ => some "invalid define form"
  | lambda, .cons params rest =>
    match params.extractParams with
    | .error e => some e
    | .ok _ => if rest.isCons then none else some "invalid lambda form"
  | lambda, _ => some "invalid lambda form"
  | «if», .cons _ _ => none
  | «if», _ => some "invalid if form"
  | begin, _ => none

variable [ToString N] [Zero N] [Add N] [Sub N]

mutual

/-- `Evaluates σ env e r σ'`: in the environment `env` of `σ`, `e` has the result `r`, and leaves
`σ'`. -/
inductive Evaluates : Store N → Nat → Value N → Except String (Value N) → Store N → Prop
  | bound {σ : Store N} {env : Nat} {name : String} {v : Value N} :
    σ.lookup env name = some v → Evaluates σ env (.symbol name) (.ok v) σ
  | unbound {σ : Store N} {env : Nat} {name : String} : σ.lookup env name = none →
    Evaluates σ env (.symbol name) (.error ("undefined variable: " ++ name)) σ
  | self {σ : Store N} {env : Nat} {v : Value N} : v.isCons = false → (∀ name, v ≠ .symbol name) →
    Evaluates σ env v (.ok v) σ
  | malformed {σ : Store N} {env : Nat} {head cdr : Value N} {form : Form} {e : String} :
    head.form? = some form → form.malformed cdr = some e →
    Evaluates σ env (.cons head cdr) (.error e) σ
  | quote {σ : Store N} {env : Nat} {head datum rest : Value N} : head.form? = some .quote →
    Evaluates σ env (.cons head (.cons datum rest)) (.ok datum) σ
  | lambda {σ : Store N} {env : Nat} {head params body rest : Value N} {names : List String} :
    head.form? = some .lambda → params.extractParams = .ok names →
    Evaluates σ env (.cons head (.cons params (.cons body rest))) (.ok (.lambda names body env)) σ
  | define {σ σ' : Store N} {env : Nat} {head e rest v : Value N} {name : String} :
    head.form? = some .define → Evaluates σ env e (.ok v) σ' →
    Evaluates σ env (.cons head (.cons (.symbol name) (.cons e rest))) (.ok v)
      (σ'.define env name v)
  | defineFails {σ σ' : Store N} {env : Nat} {head e rest : Value N} {name err : String} :
    head.form? = some .define → Evaluates σ env e (.error err) σ' →
    Evaluates σ env (.cons head (.cons (.symbol name) (.cons e rest))) (.error err) σ'
  | ifTrue {σ σ₁ σ' : Store N} {env : Nat} {head c e rest v : Value N}
      {r : Except String (Value N)} :
    head.form? = some .if → Evaluates σ env c (.ok v) σ₁ → v.isTrue = true →
    Evaluates σ₁ env e r σ' → Evaluates σ env (.cons head (.cons c (.cons e rest))) r σ'
  | ifFalse {σ σ₁ σ' : Store N} {env : Nat} {head c t e rest v : Value N}
      {r : Except String (Value N)} :
    head.form? = some .if → Evaluates σ env c (.ok v) σ₁ → v.isTrue = false →
    Evaluates σ₁ env e r σ' → Evaluates σ env (.cons head (.cons c (.cons t (.cons e rest)))) r σ'
  | ifNone {σ σ' : Store N} {env : Nat} {head c t rest v : Value N} :
    head.form? = some .if → Evaluates σ env c (.ok v) σ' → v.isTrue = false →
    rest.isCons = false → Evaluates σ env (.cons head (.cons c (.cons t rest))) (.ok .nil) σ'
  | ifShort {σ σ' : Store N} {env : Nat} {head c rest v : Value N} :
    head.form? = some .if → Evaluates σ env c (.ok v) σ' → rest.isCons = false →
    Evaluates σ env (.cons head (.cons c rest)) (.error "invalid if form") σ'
  | ifFails {σ σ' : Store N} {env : Nat} {head c rest : Value N} {err : String} :
    head.form? = some .if → Evaluates σ env c (.error err) σ' →
    Evaluates σ env (.cons head (.cons c rest)) (.error err) σ'
  | begin {σ σ' : Store N} {env : Nat} {head cdr : Value N} {r : Except String (Value N)} :
    head.form? = some .begin → Sequence σ env .nil cdr r σ' → Evaluates σ env (.cons head cdr) r σ'
  | headFails {σ σ' : Store N} {env : Nat} {head cdr : Value N} {err : String} :
    head.form? = none → Evaluates σ env head (.error err) σ' →
    Evaluates σ env (.cons head cdr) (.error err) σ'
  | argsFail {σ σ₁ σ' : Store N} {env : Nat} {head cdr fn : Value N} {err : String} :
    head.form? = none → Evaluates σ env head (.ok fn) σ₁ → Arguments σ₁ env cdr (.error err) σ' →
    Evaluates σ env (.cons head cdr) (.error err) σ'
  | application {σ σ₁ σ₂ σ' : Store N} {env : Nat} {head cdr fn : Value N} {args : List (Value N)}
      {r : Except String (Value N)} :
    head.form? = none → Evaluates σ env head (.ok fn) σ₁ → Arguments σ₁ env cdr (.ok args) σ₂ →
    Applies σ₂ fn args r σ' → Evaluates σ env (.cons head cdr) r σ'

/-- The expressions of a `begin`, after one with the value `last`. -/
inductive Sequence :
    Store N → Nat → Value N → Value N → Except String (Value N) → Store N → Prop
  | last {σ : Store N} {env : Nat} {last rest : Value N} : rest.isCons = false →
    Sequence σ env last rest (.ok last) σ
  | next {σ σ₁ σ' : Store N} {env : Nat} {last e rest v : Value N} {r : Except String (Value N)} :
    Evaluates σ env e (.ok v) σ₁ → Sequence σ₁ env v rest r σ' →
    Sequence σ env last (.cons e rest) r σ'
  | fails {σ σ' : Store N} {env : Nat} {last e rest : Value N} {err : String} :
    Evaluates σ env e (.error err) σ' → Sequence σ env last (.cons e rest) (.error err) σ'

inductive Arguments : Store N → Nat → Value N → Except String (List (Value N)) → Store N → Prop
  | nil {σ : Store N} {env : Nat} : Arguments σ env .nil (.ok []) σ
  | cons {σ σ₁ σ' : Store N} {env : Nat} {e rest v : Value N} {vs : List (Value N)} :
    Evaluates σ env e (.ok v) σ₁ → Arguments σ₁ env rest (.ok vs) σ' →
    Arguments σ env (.cons e rest) (.ok (v :: vs)) σ'
  | fails {σ σ' : Store N} {env : Nat} {e rest : Value N} {err : String} :
    Evaluates σ env e (.error err) σ' → Arguments σ env (.cons e rest) (.error err) σ'
  | restFails {σ σ₁ σ' : Store N} {env : Nat} {e rest v : Value N} {err : String} :
    Evaluates σ env e (.ok v) σ₁ → Arguments σ₁ env rest (.error err) σ' →
    Arguments σ env (.cons e rest) (.error err) σ'
  | improper {σ : Store N} {env : Nat} {rest : Value N} : rest.isCons = false → rest ≠ .nil →
    Arguments σ env rest (.error "invalid list") σ

/-- The body of a closure has the environment where the closure was made around its own. -/
inductive Applies :
    Store N → Value N → List (Value N) → Except String (Value N) → Store N → Prop
  | primitive {σ : Store N} {p : Primitive} {args : List (Value N)} :
    Applies σ (.primitive p) args (p.fn args) σ
  | closure {σ σ' : Store N} {params : List String} {body : Value N} {env : Nat}
      {args : List (Value N)} {r : Except String (Value N)} : args.length = params.length →
    Evaluates (σ.enter env params args) σ.length body r σ' →
    Applies σ (.lambda params body env) args r σ'
  | arity {σ : Store N} {params : List String} {body : Value N} {env : Nat}
      {args : List (Value N)} : args.length ≠ params.length →
    Applies σ (.lambda params body env) args (.error
      s!"wrong number of arguments: expected {params.length}, got {args.length}") σ
  | notFunction {σ : Store N} {fn : Value N} {args : List (Value N)} :
    (∀ p, fn ≠ .primitive p) → (∀ params body env, fn ≠ .lambda params body env) →
    Applies σ fn args (.error ("not a function: " ++ fn.print)) σ

end

end

section

open Filter

section Forms

variable {N : Type}

theorem evalBranch_true (eval : Nested N) {cond e rest : Value N} (htrue : cond.isTrue = true)
    (env : Nat) (s : State N) : evalBranch eval env cond s (.cons e rest) = eval e env s := by
  change (if cond.isTrue = true then eval e env s else _) = eval e env s
  exact if_pos htrue

theorem evalBranch_false (eval : Nested N) {cond t e rest : Value N} (hfalse : cond.isTrue = false)
    (env : Nat) (s : State N) :
    evalBranch eval env cond s (.cons t (.cons e rest)) = eval e env s := by
  simp [evalBranch, hfalse]

theorem evalBranch_none (eval : Nested N) {cond t rest : Value N} (hfalse : cond.isTrue = false)
    (hrest : rest.isCons = false) (env : Nat) (s : State N) :
    evalBranch eval env cond s (.cons t rest) = .done (.ok .nil) s := by
  cases rest with
  | cons => cases hrest
  | _ => simp [evalBranch, hfalse]

theorem evalBranch_short (eval : Nested N) {rest : Value N} (hrest : rest.isCons = false)
    (cond : Value N) (env : Nat) (s : State N) :
    evalBranch eval env cond s rest = .done (.error "invalid if form") s := by
  cases rest with
  | cons => cases hrest
  | _ => rfl

theorem evalBegin_last (eval : Nested N) {rest : Value N} (hrest : rest.isCons = false) (env : Nat)
    (last : Value N) (s : State N) : evalBegin eval env last s rest = .done (.ok last) s := by
  cases rest with
  | cons => cases hrest
  | _ => rfl

theorem evalList_improper (eval : Nested N) {rest : Value N} (hcons : rest.isCons = false)
    (hnil : rest ≠ .nil) (env : Nat) (results : List (Value N)) (s : State N) :
    evalList eval env results s rest = .done (.error "invalid list") s := by
  cases rest with
  | cons => cases hcons
  | nil => exact absurd rfl hnil
  | _ => rfl

theorem Outcome.andThen_eq_done {α β : Type} {o : Outcome N α} {f : α → State N → Outcome N β}
    {r : Except String β} {s' : State N} (h : o.andThen f = .done r s') :
    (∃ a s, o = .done (.ok a) s ∧ f a s = .done r s') ∨
      ∃ e, r = .error e ∧ o = .done (.error e) s' := by
  match o, h with
  | .done (.ok a) s, h => exact .inl ⟨a, s, rfl, h⟩
  | .done (.error e) s, h =>
    obtain ⟨rfl, rfl⟩ := Outcome.done.inj h
    exact .inr ⟨e, rfl, rfl⟩

end Forms

variable {N : Type} [ToString N] [Zero N] [Add N] [Sub N]

theorem evalLocked_self (eval : Nested N) {v : Value N} (hcons : v.isCons = false)
    (hsymbol : ∀ name, v ≠ .symbol name) (env : Nat) (s : State N) :
    evalLocked eval v env s = .done (.ok v) s := by
  cases v with
  | symbol name => exact absurd rfl (hsymbol name)
  | cons => cases hcons
  | _ => rfl

theorem apply_notFunction (eval : Nested N) {fn : Value N} (hprimitive : ∀ p, fn ≠ .primitive p)
    (hlambda : ∀ params body env, fn ≠ .lambda params body env) (args : List (Value N))
    (s : State N) : apply eval fn args s = .done (.error ("not a function: " ++ fn.print)) s := by
  cases fn with
  | primitive p => exact absurd rfl (hprimitive p)
  | lambda params body env => exact absurd rfl (hlambda params body env)
  | _ => rfl

/-- A form that is malformed from the start fails without a nested `Eval`. -/
theorem evalCons_malformed (eval : Nested N) {head cdr : Value N} {form : Form} {e : String}
    (hform : head.form? = some form) (h : form.malformed cdr = some e) (env : Nat) (s : State N) :
    evalCons eval env s head cdr = .done (.error e) s := by
  unfold evalCons
  rw [hform]
  revert h
  cases form with
  | quote => cases cdr <;> simp +contextual [Form.malformed, evalQuote]
  | define =>
    cases cdr with
    | cons car rest =>
      cases car with
      | symbol name => cases rest <;> simp +contextual [Form.malformed, evalDefine]
      | _ => simp +contextual [Form.malformed, evalDefine]
    | _ => simp +contextual [Form.malformed, evalDefine]
  | lambda =>
    cases cdr with
    | cons params rest =>
      cases hparams : params.extractParams with
      | error e => simp +contextual [Form.malformed, evalLambda, hparams]
      | ok names =>
        cases rest <;> simp +contextual [Form.malformed, evalLambda, hparams, Value.isCons]
    | _ => simp +contextual [Form.malformed, evalLambda]
  | «if» => cases cdr <;> simp +contextual [Form.malformed, evalIf]
  | begin => simp [Form.malformed]

/-! ### A lock that its holder may take again -/

theorem evalWith_true (depth : Nat) (e : Value N) (env : Nat) (σ : Store N) (locked : Bool) :
    evalWith true (depth + 1) e env ⟨σ, locked⟩ =
      (evalLocked (evalWith true depth) e env ⟨σ, true⟩).release locked := by
  simp [evalWith]

theorem eventually_eval {e : Value N} {env : Nat} {σ σ' : Store N} {r : Except String (Value N)}
    (h : ∀ᶠ depth in atTop, evalLocked (evalWith true depth) e env ⟨σ, true⟩ = .done r ⟨σ', true⟩)
    (locked : Bool) :
    ∀ᶠ depth in atTop, evalWith true depth e env ⟨σ, locked⟩ = .done r ⟨σ', locked⟩ := by
  rw [← map_add_atTop_eq_nat 1, eventually_map]
  filter_upwards [h] with depth h
  rw [evalWith_true, h]
  rfl

mutual

/-- What the semantics gives is what the evaluator returns from some depth on. -/
theorem Evaluates.eval {σ σ' : Store N} {env : Nat} {e : Value N} {r : Except String (Value N)} :
    Evaluates σ env e r σ' → ∀ locked,
    ∀ᶠ depth in atTop, evalWith true depth e env ⟨σ, locked⟩ = .done r ⟨σ', locked⟩
  | .bound h => eventually_eval <| .of_forall fun _ => by simp [evalLocked, h]
  | .unbound h => eventually_eval <| .of_forall fun _ => by simp [evalLocked, h]
  | .self hcons hsymbol => eventually_eval <| .of_forall fun _ =>
    evalLocked_self _ hcons hsymbol env _
  | .malformed hform h => eventually_eval <| .of_forall fun _ => evalCons_malformed _ hform h env _
  | .quote hform => eventually_eval <| .of_forall fun _ => by
    simp [evalLocked, evalCons, hform, evalQuote]
  | .lambda hform h => eventually_eval <| .of_forall fun _ => by
    simp [evalLocked, evalCons, hform, evalLambda, h]
  | .define hform he => eventually_eval <| by
    filter_upwards [he.eval true] with depth ih
    simp [evalLocked, evalCons, hform, evalDefine, ih, Outcome.andThen]
  | .defineFails hform he => eventually_eval <| by
    filter_upwards [he.eval true] with depth ih
    simp [evalLocked, evalCons, hform, evalDefine, ih, Outcome.andThen]
  | .ifTrue hform hc htrue he => eventually_eval <| by
    filter_upwards [hc.eval true, he.eval true] with depth ihc ih
    simp [evalLocked, evalCons, hform, evalIf, ihc, Outcome.andThen, evalBranch_true _ htrue, ih]
  | .ifFalse hform hc hfalse he => eventually_eval <| by
    filter_upwards [hc.eval true, he.eval true] with depth ihc ih
    simp [evalLocked, evalCons, hform, evalIf, ihc, Outcome.andThen, evalBranch_false _ hfalse, ih]
  | .ifNone hform hc hfalse hrest => eventually_eval <| by
    filter_upwards [hc.eval true] with depth ihc
    simp [evalLocked, evalCons, hform, evalIf, ihc, Outcome.andThen, evalBranch_none _ hfalse hrest]
  | .ifShort hform hc hrest => eventually_eval <| by
    filter_upwards [hc.eval true] with depth ihc
    simp [evalLocked, evalCons, hform, evalIf, ihc, Outcome.andThen, evalBranch_short _ hrest]
  | .ifFails hform hc => eventually_eval <| by
    filter_upwards [hc.eval true] with depth ihc
    simp [evalLocked, evalCons, hform, evalIf, ihc, Outcome.andThen]
  | .begin hform h => eventually_eval <| by
    filter_upwards [h.eval] with depth ih
    simp [evalLocked, evalCons, hform, ih]
  | .headFails hform hhead => eventually_eval <| by
    filter_upwards [hhead.eval true] with depth ih
    simp [evalLocked, evalCons, hform, ih, Outcome.andThen]
  | .argsFail hform hhead hargs => eventually_eval <| by
    filter_upwards [hhead.eval true, hargs.eval []] with depth ih ihargs
    simp [evalLocked, evalCons, hform, ih, Outcome.andThen, ihargs, Except.map]
  | .application hform hhead hargs happly => eventually_eval <| by
    filter_upwards [hhead.eval true, hargs.eval [], happly.eval] with depth ih ihargs ihapply
    simp [evalLocked, evalCons, hform, ih, Outcome.andThen, ihargs, Except.map, ihapply]

theorem Sequence.eval {σ σ' : Store N} {env : Nat} {last rest : Value N}
    {r : Except String (Value N)} : Sequence σ env last rest r σ' →
    ∀ᶠ depth in atTop,
      evalBegin (evalWith true depth) env last ⟨σ, true⟩ rest = .done r ⟨σ', true⟩
  | .last hrest => .of_forall fun _ => evalBegin_last _ hrest ..
  | .next he hrest => by
    filter_upwards [he.eval true, hrest.eval] with depth ih ihrest
    simp [evalBegin, ih, Outcome.andThen, ihrest]
  | .fails he => by
    filter_upwards [he.eval true] with depth ih
    simp [evalBegin, ih, Outcome.andThen]

theorem Arguments.eval {σ σ' : Store N} {env : Nat} {rest : Value N}
    {r : Except String (List (Value N))} : Arguments σ env rest r σ' → ∀ results,
    ∀ᶠ depth in atTop, evalList (evalWith true depth) env results ⟨σ, true⟩ rest =
      .done (r.map (results ++ ·)) ⟨σ', true⟩
  | .nil, results => .of_forall fun _ => by simp [evalList, Except.map]
  | .cons (v := v) he hrest, results => by
    filter_upwards [he.eval true, hrest.eval (results ++ [v])] with depth ih ihrest
    simp [evalList, ih, Outcome.andThen, ihrest, Except.map]
  | .fails he, results => by
    filter_upwards [he.eval true] with depth ih
    simp [evalList, ih, Outcome.andThen, Except.map]
  | .restFails (v := v) he hrest, results => by
    filter_upwards [he.eval true, hrest.eval (results ++ [v])] with depth ih ihrest
    simp [evalList, ih, Outcome.andThen, ihrest, Except.map]
  | .improper hcons hnil, results => .of_forall fun _ => evalList_improper _ hcons hnil ..

theorem Applies.eval {σ σ' : Store N} {fn : Value N} {args : List (Value N)}
    {r : Except String (Value N)} : Applies σ fn args r σ' →
    ∀ᶠ depth in atTop, apply (evalWith true depth) fn args ⟨σ, true⟩ = .done r ⟨σ', true⟩
  | .primitive => .of_forall fun _ => rfl
  | .closure hlength hbody => by
    filter_upwards [hbody.eval true] with depth ih
    simp [apply, hlength, ih]
  | .arity hlength => .of_forall fun _ => by simp [apply, hlength]
  | .notFunction hprimitive hlambda => .of_forall fun _ => apply_notFunction _ hprimitive hlambda ..

end

theorem evalLambda_evaluates {head cdr : Value N} {env : Nat} {s s' : State N}
    {r : Except String (Value N)} (hform : head.form? = some .lambda)
    (h : evalLambda env s cdr = .done r s') :
    s'.locked = s.locked ∧ Evaluates s.store env (.cons head cdr) r s'.store := by
  cases cdr with
  | cons params rest =>
    cases hparams : params.extractParams with
    | error e =>
      simp only [evalLambda, hparams] at h
      obtain ⟨rfl, rfl⟩ := Outcome.done.inj h
      exact ⟨rfl, .malformed hform (by simp [Form.malformed, hparams])⟩
    | ok names =>
      cases rest with
      | cons body rest =>
        simp only [evalLambda, hparams] at h
        obtain ⟨rfl, rfl⟩ := Outcome.done.inj h
        exact ⟨rfl, .lambda hform hparams⟩
      | _ =>
        simp only [evalLambda, hparams] at h
        obtain ⟨rfl, rfl⟩ := Outcome.done.inj h
        exact ⟨rfl, .malformed hform (by simp [Form.malformed, hparams, Value.isCons])⟩
  | _ =>
    obtain ⟨rfl, rfl⟩ := Outcome.done.inj h
    exact ⟨rfl, .malformed hform rfl⟩

/-- What is returned is what the semantics gives, and the lock is left as it was. -/
def Sound (eval : Nested N) : Prop :=
  ∀ {e : Value N} {env : Nat} {s : State N} {r : Except String (Value N)} {s' : State N},
    eval e env s = .done r s' → s'.locked = s.locked ∧ Evaluates s.store env e r s'.store

section Sound

variable {eval : Nested N} (sound : Sound eval) {env : Nat} {s s' : State N}
  {r : Except String (Value N)}

include sound

theorem Sound.evalBegin {last rest : Value N} (h : evalBegin eval env last s rest = .done r s') :
    s'.locked = s.locked ∧ Sequence s.store env last rest r s'.store := by
  induction rest generalizing last s with
  | cons e rest _ ih =>
    rcases Outcome.andThen_eq_done h with ⟨v, s₁, he, h⟩ | ⟨err, rfl, he⟩
    · obtain ⟨hlocked, hrest⟩ := ih h
      exact ⟨hlocked.trans (sound he).1, .next (sound he).2 hrest⟩
    · exact ⟨(sound he).1, .fails (sound he).2⟩
  | _ =>
    obtain ⟨rfl, rfl⟩ := Outcome.done.inj h
    exact ⟨rfl, .last rfl⟩

theorem Sound.evalList {rest : Value N} {results : List (Value N)}
    {r : Except String (List (Value N))} (h : evalList eval env results s rest = .done r s') :
    s'.locked = s.locked ∧
      ∃ r', r = r'.map (results ++ ·) ∧ Arguments s.store env rest r' s'.store := by
  induction rest generalizing results s with
  | cons e rest _ ih =>
    rcases Outcome.andThen_eq_done h with ⟨v, s₁, he, h⟩ | ⟨err, rfl, he⟩
    · obtain ⟨hlocked, r', rfl, hrest⟩ := ih h
      refine ⟨hlocked.trans (sound he).1, ?_⟩
      cases r' with
      | ok vs => exact ⟨.ok (v :: vs), by simp [Except.map], .cons (sound he).2 hrest⟩
      | error err => exact ⟨.error err, rfl, .restFails (sound he).2 hrest⟩
    · exact ⟨(sound he).1, .error err, rfl, .fails (sound he).2⟩
  | nil =>
    obtain ⟨rfl, rfl⟩ := Outcome.done.inj h
    exact ⟨rfl, .ok [], by simp [Except.map], .nil⟩
  | _ =>
    obtain ⟨rfl, rfl⟩ := Outcome.done.inj h
    exact ⟨rfl, .error _, rfl, .improper rfl nofun⟩

theorem Sound.apply {fn : Value N} {args : List (Value N)}
    (h : apply eval fn args s = .done r s') :
    s'.locked = s.locked ∧ Applies s.store fn args r s'.store := by
  cases fn with
  | primitive p =>
    obtain ⟨rfl, rfl⟩ := Outcome.done.inj h
    exact ⟨rfl, .primitive⟩
  | lambda params body env =>
    rw [Scheme.apply] at h
    split at h
    · rename_i hlength
      exact ⟨(sound h).1, .closure hlength (sound h).2⟩
    · rename_i hlength
      obtain ⟨rfl, rfl⟩ := Outcome.done.inj h
      exact ⟨rfl, .arity hlength⟩
  | _ =>
    obtain ⟨rfl, rfl⟩ := Outcome.done.inj h
    exact ⟨rfl, .notFunction nofun nofun⟩

theorem Sound.evalDefine {head cdr : Value N} (hform : head.form? = some .define)
    (h : evalDefine eval env s cdr = .done r s') :
    s'.locked = s.locked ∧ Evaluates s.store env (.cons head cdr) r s'.store := by
  unfold Scheme.evalDefine at h
  split at h
  · rcases Outcome.andThen_eq_done h with ⟨v, s₁, he, h⟩ | ⟨err, rfl, he⟩
    · obtain ⟨rfl, rfl⟩ := Outcome.done.inj h
      exact ⟨(sound he).1, .define hform (sound he).2⟩
    · exact ⟨(sound he).1, .defineFails hform (sound he).2⟩
  all_goals
    obtain ⟨rfl, rfl⟩ := Outcome.done.inj h
    exact ⟨rfl, .malformed hform (by simp [Form.malformed, *])⟩

theorem Sound.evalIf {head cdr : Value N} (hform : head.form? = some .if)
    (h : evalIf eval env s cdr = .done r s') :
    s'.locked = s.locked ∧ Evaluates s.store env (.cons head cdr) r s'.store := by
  cases cdr with
  | cons c branches =>
    rcases Outcome.andThen_eq_done h with ⟨v, s₁, hc, hbranch⟩ | ⟨err, rfl, hc⟩
    · rw [← (sound hc).1]
      cases branches with
      | cons e rest =>
        cases htrue : v.isTrue with
        | true =>
          rw [evalBranch_true _ htrue] at hbranch
          exact ⟨(sound hbranch).1, .ifTrue hform (sound hc).2 htrue (sound hbranch).2⟩
        | false =>
          cases rest with
          | cons e rest =>
            rw [evalBranch_false _ htrue] at hbranch
            exact ⟨(sound hbranch).1, .ifFalse hform (sound hc).2 htrue (sound hbranch).2⟩
          | _ =>
            rw [evalBranch_none _ htrue rfl] at hbranch
            obtain ⟨rfl, rfl⟩ := Outcome.done.inj hbranch
            exact ⟨rfl, .ifNone hform (sound hc).2 htrue rfl⟩
      | _ =>
        obtain ⟨rfl, rfl⟩ := Outcome.done.inj hbranch
        exact ⟨rfl, .ifShort hform (sound hc).2 rfl⟩
    · exact ⟨(sound hc).1, .ifFails hform (sound hc).2⟩
  | _ =>
    obtain ⟨rfl, rfl⟩ := Outcome.done.inj h
    exact ⟨rfl, .malformed hform rfl⟩

theorem Sound.evalCons {head cdr : Value N} (h : evalCons eval env s head cdr = .done r s') :
    s'.locked = s.locked ∧ Evaluates s.store env (.cons head cdr) r s'.store := by
  unfold Scheme.evalCons at h
  cases hform : head.form? with
  | none =>
    rw [hform] at h
    rcases Outcome.andThen_eq_done h with ⟨fn, s₁, hhead, h⟩ | ⟨err, rfl, hhead⟩
    · rcases Outcome.andThen_eq_done h with ⟨args, s₂, hargs, h⟩ | ⟨err, rfl, hargs⟩
      · obtain ⟨hlocked, r', heq, hargs⟩ := sound.evalList hargs
        cases r' with
        | error err => cases heq
        | ok vs =>
          obtain rfl : args = vs := Except.ok.inj heq
          obtain ⟨happly, h⟩ := sound.apply h
          exact ⟨happly.trans (hlocked.trans (sound hhead).1),
            .application hform (sound hhead).2 hargs h⟩
      · obtain ⟨hlocked, r', heq, hargs⟩ := sound.evalList hargs
        cases r' with
        | error e =>
          obtain rfl : err = e := Except.error.inj heq
          exact ⟨hlocked.trans (sound hhead).1, .argsFail hform (sound hhead).2 hargs⟩
        | ok vs => cases heq
    · exact ⟨(sound hhead).1, .headFails hform (sound hhead).2⟩
  | some form =>
    rw [hform] at h
    cases form with
    | quote =>
      cases cdr with
      | cons datum rest =>
        obtain ⟨rfl, rfl⟩ := Outcome.done.inj h
        exact ⟨rfl, .quote hform⟩
      | _ =>
        obtain ⟨rfl, rfl⟩ := Outcome.done.inj h
        exact ⟨rfl, .malformed hform rfl⟩
    | define => exact sound.evalDefine hform h
    | lambda => exact evalLambda_evaluates hform h
    | «if» => exact sound.evalIf hform h
    | begin =>
      obtain ⟨hlocked, h⟩ := sound.evalBegin h
      exact ⟨hlocked, .begin hform h⟩

theorem Sound.evalLocked {e : Value N} (h : evalLocked eval e env s = .done r s') :
    s'.locked = s.locked ∧ Evaluates s.store env e r s'.store := by
  cases e with
  | symbol name =>
    rw [Scheme.evalLocked] at h
    split at h
    · rename_i v hlookup
      obtain ⟨rfl, rfl⟩ := Outcome.done.inj h
      exact ⟨rfl, .bound hlookup⟩
    · rename_i hlookup
      obtain ⟨rfl, rfl⟩ := Outcome.done.inj h
      exact ⟨rfl, .unbound hlookup⟩
  | cons head cdr => exact sound.evalCons h
  | _ =>
    obtain ⟨rfl, rfl⟩ := Outcome.done.inj h
    exact ⟨rfl, .self rfl nofun⟩

end Sound

theorem sound_evalWith (depth : Nat) : Sound (evalWith (N := N) true depth) := by
  induction depth with
  | zero => nofun
  | succ depth ih =>
    intro e env ⟨σ, locked⟩ r s' h
    rw [evalWith_true] at h
    match hlocked : evalLocked (evalWith true depth) e env ⟨σ, true⟩, h with
    | .done r s', h =>
      obtain ⟨rfl, rfl⟩ := Outcome.done.inj h
      exact ⟨rfl, (ih.evalLocked hlocked).2⟩

/-- With a lock that its holder may take again, the evaluator is the semantics. -/
theorem evaluates_iff {σ σ' : Store N} {env : Nat} {e : Value N} {r : Except String (Value N)} :
    Evaluates σ env e r σ' ↔
      ∃ depth, evalWith true depth e env ⟨σ, false⟩ = .done r ⟨σ', false⟩ :=
  ⟨fun h => (h.eval false).exists, fun ⟨depth, h⟩ => (sound_evalWith depth h).2⟩

/-! ### The lock of the evaluator -/

theorem eval_locked (depth : Nat) (e : Value N) (env : Nat) (σ : Store N) :
    eval (depth + 1) e env ⟨σ, true⟩ = .stuck := rfl

theorem eval_unlocked (depth : Nat) (e : Value N) (env : Nat) (σ : Store N) :
    eval (depth + 1) e env ⟨σ, false⟩ =
      (evalLocked (eval depth) e env ⟨σ, true⟩).release false := rfl

/-- An expression that needs no nested `Eval` has the same result with any. -/
theorem evalLocked_congr {e : Value N} (h : e.nests = false) (eval eval' : Nested N) (env : Nat)
    (s : State N) : evalLocked eval e env s = evalLocked eval' e env s := by
  cases e with
  | cons head cdr =>
    cases hform : head.form? with
    | none => simp [Value.nests, hform] at h
    | some form =>
      simp only [evalLocked, evalCons, hform]
      cases form with
      | quote => rfl
      | lambda => rfl
      | define =>
        cases cdr with
        | cons car rest =>
          cases car with
          | symbol name =>
            cases rest with
            | cons => simp [Value.nests, hform] at h
            | _ => rfl
          | _ => rfl
        | _ => rfl
      | «if» =>
        cases cdr with
        | cons => simp [Value.nests, hform, Value.isCons] at h
        | _ => rfl
      | begin =>
        cases cdr with
        | cons => simp [Value.nests, hform, Value.isCons] at h
        | _ => rfl
  | _ => rfl

/-- An expression that needs a nested `Eval` has it first. -/
theorem evalLocked_nests {e : Value N} (h : e.nests = true) {eval : Nested N} {env : Nat}
    {s : State N} (hstuck : ∀ e, eval e env s = .stuck) : evalLocked eval e env s = .stuck := by
  cases e with
  | cons head cdr =>
    simp only [evalLocked, evalCons]
    cases hform : head.form? with
    | none => simp [hstuck, Outcome.andThen]
    | some form =>
      cases form with
      | quote => simp [Value.nests, hform] at h
      | lambda => simp [Value.nests, hform] at h
      | define =>
        cases cdr with
        | cons car rest =>
          cases car with
          | symbol name =>
            cases rest with
            | cons => simp [evalDefine, hstuck, Outcome.andThen]
            | _ => simp [Value.nests, hform] at h
          | _ => simp [Value.nests, hform] at h
        | _ => simp [Value.nests, hform] at h
      | «if» =>
        cases cdr with
        | cons => simp [evalIf, hstuck, Outcome.andThen]
        | _ => simp [Value.nests, hform, Value.isCons] at h
      | begin =>
        cases cdr with
        | cons => simp [evalBegin, hstuck, Outcome.andThen]
        | _ => simp [Value.nests, hform, Value.isCons] at h
  | _ => simp [Value.nests] at h

/-- Where the semantics has a result, `Eval` returns it and never waits for a lock that it holds
exactly for the expressions that need no nested `Eval`. -/
theorem eval_refines_iff {σ σ' : Store N} {env : Nat} {e : Value N} {r : Except String (Value N)}
    (h : Evaluates σ env e r σ') :
    ((∃ depth, eval depth e env ⟨σ, false⟩ = .done r ⟨σ', false⟩) ∧
      ∀ depth, eval depth e env ⟨σ, false⟩ ≠ .stuck) ↔ e.nests = false := by
  constructor
  · rintro ⟨-, hfree⟩
    rw [← Bool.not_eq_true]
    intro hnests
    refine hfree 2 ?_
    rw [eval_unlocked, evalLocked_nests hnests fun e => eval_locked 0 e env σ]
    rfl
  · intro hnests
    obtain ⟨depth, hdepth⟩ := evaluates_iff.mp h
    cases depth with
    | zero => cases hdepth
    | succ depth =>
      rw [evalWith_true] at hdepth
      have heval : ∀ n, eval (n + 1) e env ⟨σ, false⟩ = .done r ⟨σ', false⟩ := by
        intro n
        rw [eval_unlocked, evalLocked_congr hnests _ (evalWith true depth), hdepth]
      refine ⟨⟨1, heval 0⟩, fun n hn => ?_⟩
      cases n with
      | zero => cases hn
      | succ n => cases (heval n).symm.trans hn

theorem quote_refines :
    (∃ depth, eval depth (.cons (.symbol "quote") (.cons (.symbol "x") .nil)) 0
      ⟨Store.initial, false⟩ = .done (.ok (.symbol "x")) ⟨Store.initial (N := Int), false⟩) ∧
    ∀ depth, eval depth (.cons (.symbol "quote") (.cons (.symbol "x") .nil)) 0
      ⟨Store.initial (N := Int), false⟩ ≠ .stuck :=
  (eval_refines_iff (.quote (by decide))).mpr (by decide)

/-- `(+ 1 2)` has the value `3`, and `Eval` waits forever for its own lock. -/
theorem sum_stuck : ¬ ∀ {σ σ' : Store Int} {env : Nat} {e : Value Int}
    {r : Except String (Value Int)}, Evaluates σ env e r σ' →
    (∃ depth, eval depth e env ⟨σ, false⟩ = .done r ⟨σ', false⟩) ∧
      ∀ depth, eval depth e env ⟨σ, false⟩ ≠ .stuck := by
  intro claim
  have sum : Evaluates (N := Int) Store.initial 0
      (.cons (.symbol "+") (.cons (.number 1) (.cons (.number 2) .nil))) (.ok (.number 3))
      Store.initial :=
    .application (by decide) (.bound (by decide))
      (.cons (.self rfl nofun) (.cons (.self rfl nofun) .nil)) (.primitive (p := .add))
  exact (claim sum).2 2 rfl

end

end Ecco9.Scheme
