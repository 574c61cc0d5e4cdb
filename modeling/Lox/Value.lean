import Lox.NameTable
import Lox.Syntax

/-!
# Values

The values that programs compute with. Functions, classes and instances are objects with an
identity of their own: two of them are equal only if they are the same object. The fields of an
instance change over time and are kept with the rest of the machine's state.
-/

namespace Lox

/-- The place of a scope among all scopes. -/
structure ScopeId where
  index : Nat
  deriving DecidableEq, Repr

/-- The identity of a function or class. -/
structure ObjectId where
  index : Nat
  deriving DecidableEq, Repr

/-- The identity of an instance: its place among all instances. -/
structure InstanceId where
  index : Nat
  deriving DecidableEq, Repr

/-- A function that the host provides, as programs see it. -/
structure NativeInfo where
  /-- Its place among the host's functions. -/
  id : Nat
  name : String
  arity : Nat
  deriving DecidableEq, Repr

/-- A function together with the scope in which it was declared. -/
structure Closure where
  id : ObjectId
  declaration : FunctionDecl
  scope : ScopeId
  /-- Is it a method named `init`? -/
  isInitializer : Bool

/-- A class: its own methods and its superclass. -/
structure Class where
  id : ObjectId
  name : String
  superclass : Option Class
  methods : NameTable Closure

/-- The values of Lox. -/
inductive Value where
  | nil
  | bool (value : Bool)
  | number (value : Float)
  | string (contents : String)
  | native (info : NativeInfo)
  | function (closure : Closure)
  | class_ (cls : Class)
  | instance_ (id : InstanceId) (cls : Class)

namespace Closure

/-- The name of a function. -/
def name (c : Closure) : String :=
  c.declaration.name.lexeme

/-- The number of arguments that a function takes. -/
def arity (c : Closure) : Nat :=
  c.declaration.arity

end Closure

namespace Class

/-- The method of this name of the class itself or of the nearest class that it inherits one
    from. -/
def findMethod? : Class → String → Option Closure
  | ⟨_, _, superclass, methods⟩, name =>
    match methods.get? name with
    | some method => some method
    | none =>
      match superclass with
      | some s => s.findMethod? name
      | none => none

/-- The number of arguments with which instances are made: that of the initializer. -/
def arity (c : Class) : Nat :=
  match c.findMethod? "init" with
  | some initializer => initializer.arity
  | none => 0

end Class

/-- Numbers have their shortest digits. From `0.001` up to ten millions they are written without an
    exponent; otherwise with one digit before the point and at least one after it. -/
def Layout.value : Layout where
  positional e := -3 ≤ e && e ≤ 6
  wholeSuffix := ""
  singleSuffix := ".0"
  raised := "E"
  lowered := "E-"

/-- A number as programs print it. -/
def numberText (x : Float) : String :=
  match Double.ofFloat x with
  | .nan => "NaN"
  | .infinite negative => if negative then "-Infinity" else "Infinity"
  | .finite negative magnitude =>
    (if negative then "-" else "") ++ (magnitude.shortest .up).text .value

namespace Value

/-- A value as programs print it. -/
def text : Value → String
  | nil => "nil"
  | bool b => if b then "true" else "false"
  | number x => numberText x
  | string contents => contents
  | native _ => "<native fn>"
  | function c => "<fn " ++ c.name ++ ">"
  | class_ c => "<class " ++ c.name ++ ">"
  | instance_ _ c => "<instance " ++ c.name ++ ">"

/-- The name of a value's type. -/
def typeName : Value → String
  | nil => "nil"
  | bool _ => "bool"
  | number _ => "number"
  | string _ => "string"
  | native _ => "native"
  | function _ => "function"
  | class_ _ => "class"
  | instance_ _ _ => "instance"

/-- Does a condition with this value hold? Only `nil` and `false` do not. -/
def isTruthy : Value → Bool
  | nil => false
  | bool b => b
  | _ => true

/-- Are two values equal? Numbers are if they are the same double, so zero differs from minus zero
    and what is not a number equals itself. Objects are if they are the same object. -/
def same : Value → Value → Bool
  | nil, nil => true
  | bool a, bool b => a = b
  | number a, number b => a = b
  | string a, string b => a = b
  | native a, native b => a.id = b.id
  | function a, function b => a.id = b.id
  | class_ a, class_ b => a.id = b.id
  | instance_ a _, instance_ b _ => a = b
  | _, _ => false

/-- The number of arguments that a value takes, if it can be called. -/
def arity? : Value → Option Nat
  | native info => some info.arity
  | function c => some c.arity
  | class_ c => some c.arity
  | _ => none

/-- The value of a literal. -/
def ofLiteral : Literal → Value
  | .number x => number x
  | .string contents => string contents
  | .true => bool true
  | .false => bool false
  | .nil => nil

end Value

end Lox
