import Mathlib.Data.List.Nodup
import Lox.Proofs.Uses

/-!
# The rules of names

What has to hold of a program before it runs, said about its places: a `Site` is a node of the tree
together with the constructs around it, innermost first. No scope stack and no flags are kept; a
rule only asks what stands around a node.

## Key results

- `Stmt.resolve_judges`: the faults in a statement, and what is known behind it
- `Resolution.errors_eq_nil_iff_wellScoped`: the resolver finds nothing exactly in programs that
  keep the rules
-/

namespace Lox

/-! ## The rules -/

/-- What may stand around a place of a program. -/
inductive Construct where
  | block (body : List Stmt)
  | function (declaration : FunctionDecl)
  | method (declaration : FunctionDecl)
  | cls (declaration : ClassDecl)
  /-- The initializer of a variable. -/
  | initializer (name : Token)

namespace Construct

/-- Blocks and functions have a scope for the names declared in them. -/
def opensScope : Construct → Bool
  | block _ | function _ | method _ => true
  | cls _ | initializer _ => false

def isFunction : Construct → Bool
  | function _ | method _ => true
  | _ => false

end Construct

/-- What stands around a place, innermost first. -/
abbrev Path :=
  List Construct

namespace Path

/-- Is a declaration at this place local? -/
def isLocal (path : Path) : Bool :=
  path.any (·.opensScope)

/-- The nearest function or method around a place. -/
def function? (path : Path) : Option Construct :=
  path.find? (·.isFunction)

/-- The nearest class around a place. -/
def class? : Path → Option ClassDecl
  | [] => none
  | .cls c :: _ => some c
  | _ :: outer => class? outer

/-- The place is inside the initializer of a local variable of this name. -/
def Initializes : Path → String → Prop
  | [], _ => False
  | .initializer name :: outer, x => (name.lexeme = x ∧ isLocal outer) ∨ Initializes outer x
  | _ :: outer, x => Initializes outer x

end Path

/-- A node of a tree. -/
inductive Node where
  | statement (s : Stmt)
  | function (d : FunctionDecl)
  | expression (e : Expr)

/-- A node and what stands around it. -/
structure Site where
  node : Node
  path : Path

namespace Expr

mutual

/-- An expression and all expressions in it. -/
def parts : Expr → List Expr
  | literal value => [literal value]
  | grouping inner => grouping inner :: inner.parts
  | unary op operand => unary op operand :: operand.parts
  | binary op left right => binary op left right :: (left.parts ++ right.parts)
  | logical op left right => logical op left right :: (left.parts ++ right.parts)
  | var id name => [var id name]
  | assign id name value => assign id name value :: value.parts
  | call callee paren arguments =>
    call callee paren arguments :: (callee.parts ++ partsList arguments)
  | get object name => get object name :: object.parts
  | set object name value => set object name value :: (object.parts ++ value.parts)
  | this id keyword => [this id keyword]
  | super id keyword method => [super id keyword method]

def partsList : List Expr → List Expr
  | [] => []
  | e :: rest => e.parts ++ partsList rest

end

/-- The nodes of an expression. Nothing in an expression stands around another one. -/
def sites (path : Path) (e : Expr) : List Site :=
  e.parts.map fun part => ⟨.expression part, path⟩

def sitesOption (path : Path) : Option Expr → List Site
  | none => []
  | some e => e.sites path

end Expr

namespace Stmt

/-- The names that a statement declares in the scope around it. Branches and bodies of loops have
    no scope of their own. -/
def names : Stmt → List String
  | varDecl name _ => [name.lexeme]
  | funDecl declaration => [declaration.name.lexeme]
  | classDecl declaration => [declaration.name.lexeme]
  | cond _ thenBranch none => thenBranch.names
  | cond _ thenBranch (some elseBranch) => thenBranch.names ++ elseBranch.names
  | loop _ body => body.names
  | _ => []

/-- The names that statements declare in the scope around them. -/
def namesList (body : List Stmt) : List String :=
  body.flatMap names

mutual

/-- The nodes of a statement. The superclass of a class counts as a part of it. -/
def sites (path : Path) : Stmt → List Site
  | expression value => ⟨.statement (expression value), path⟩ :: value.sites path
  | print value => ⟨.statement (print value), path⟩ :: value.sites path
  | varDecl name initializer =>
    ⟨.statement (varDecl name initializer), path⟩ ::
      Expr.sitesOption (.initializer name :: path) initializer
  | block body => ⟨.statement (block body), path⟩ :: sitesList (.block body :: path) body
  | cond condition thenBranch none =>
    ⟨.statement (cond condition thenBranch none), path⟩ ::
      (condition.sites path ++ thenBranch.sites path)
  | cond condition thenBranch (some elseBranch) =>
    ⟨.statement (cond condition thenBranch (some elseBranch)), path⟩ ::
      (condition.sites path ++ thenBranch.sites path ++ elseBranch.sites path)
  | loop condition body =>
    ⟨.statement (loop condition body), path⟩ :: (condition.sites path ++ body.sites path)
  | funDecl d => ⟨.statement (funDecl d), path⟩ :: functionSites (.function d :: path) d
  | ret keyword value => ⟨.statement (ret keyword value), path⟩ :: Expr.sitesOption path value
  | classDecl ⟨name, superclass, methods⟩ =>
    ⟨.statement (classDecl ⟨name, superclass, methods⟩), path⟩ ::
      (Expr.sitesOption (.cls ⟨name, superclass, methods⟩ :: path) superclass ++
        methodSites (.cls ⟨name, superclass, methods⟩ :: path) methods)

def sitesList (path : Path) : List Stmt → List Site
  | [] => []
  | s :: rest => s.sites path ++ sitesList path rest

/-- The nodes of a function, from inside of it. -/
def functionSites (path : Path) : FunctionDecl → List Site
  | ⟨name, params, body⟩ => ⟨.function ⟨name, params, body⟩, path⟩ :: sitesList path body

def methodSites (path : Path) : List FunctionDecl → List Site
  | [] => []
  | d :: rest => functionSites (.method d :: path) d ++ methodSites path rest

end

/-- The rules of names, at every node of a program. -/
structure WellScoped (program : List Stmt) : Prop where
  /-- No two declarations of one name stand in one block. -/
  block : ∀ body path, ⟨.statement (.block body), path⟩ ∈ sitesList [] program →
    (namesList body).Nodup
  /-- Nor in one function, where parameters count as declarations in its body. -/
  function : ∀ d path, ⟨.function d, path⟩ ∈ sitesList [] program →
    (d.params.map (·.lexeme) ++ namesList d.body).Nodup
  /-- No local variable is read in its own initializer. -/
  read : ∀ id name path, ⟨.expression (.var id name), path⟩ ∈ sitesList [] program →
    ¬ path.Initializes name.lexeme
  /-- A `return` stands in a function or method. -/
  return_inside : ∀ keyword value path,
    ⟨.statement (.ret keyword value), path⟩ ∈ sitesList [] program → path.function? ≠ none
  /-- Methods named `init` return no values. -/
  init_returns : ∀ keyword value path d,
    ⟨.statement (.ret keyword (some value)), path⟩ ∈ sitesList [] program →
    path.function? = some (.method d) → d.name.lexeme ≠ "init"
  /-- A `this` stands in a class. -/
  this_inside : ∀ id keyword path, ⟨.expression (.this id keyword), path⟩ ∈ sitesList [] program →
    ∃ c, .cls c ∈ path
  /-- A `super` stands in a class, the nearest of which has a superclass. -/
  super_inside : ∀ id keyword method path,
    ⟨.expression (.super id keyword method), path⟩ ∈ sitesList [] program →
    ∃ c, path.class? = some c ∧ c.superclass ≠ none
  /-- No class is its own superclass. -/
  superclass : ∀ name id superName methods path,
    ⟨.statement (.classDecl ⟨name, some (.var id superName), methods⟩), path⟩ ∈
      sitesList [] program → superName.lexeme ≠ name.lexeme

end Stmt

/-- The rules that concern a node. -/
def Node.Keeps (path : Path) : Node → Prop
  | statement (.block body) => (Stmt.namesList body).Nodup
  | statement (.ret _ value) => path.function? ≠ none ∧
      ∀ e ∈ value, ∀ d, path.function? = some (.method d) → d.name.lexeme ≠ "init"
  | statement (.classDecl ⟨name, some (.var _ superName), _⟩) => superName.lexeme ≠ name.lexeme
  | function d => (d.params.map (·.lexeme) ++ Stmt.namesList d.body).Nodup
  | expression (.var _ name) => ¬ path.Initializes name.lexeme
  | expression (.this _ _) => ∃ c, .cls c ∈ path
  | expression (.super _ _ _) => ∃ c, path.class? = some c ∧ c.superclass ≠ none
  | _ => True

/-- The rules hold at all of these places. -/
def KeptAt (sites : List Site) : Prop :=
  ∀ site ∈ sites, site.node.Keeps site.path

namespace KeptAt

/-- Where there is no site nothing has to be kept. -/
@[simp] theorem nil : KeptAt [] :=
  fun _ h => absurd h List.not_mem_nil

/-- The rules are kept at some sites if they are kept at the first and at the others. -/
@[simp] theorem cons_iff {site : Site} {sites : List Site} :
    KeptAt (site :: sites) ↔ site.node.Keeps site.path ∧ KeptAt sites :=
  List.forall_mem_cons

/-- The rules are kept at the sites of two parts if they are kept at those of each. -/
@[simp] theorem append_iff {sites sites' : List Site} :
    KeptAt (sites ++ sites') ↔ KeptAt sites ∧ KeptAt sites' :=
  List.forall_mem_append

end KeptAt

/-- The rules, node by node. -/
theorem Stmt.wellScoped_iff {program : List Stmt} :
    WellScoped program ↔ KeptAt (sitesList [] program) := by
  constructor
  · rintro h ⟨node, path⟩ hsite
    show node.Keeps path
    -- one rule for each kind of node; the last kind has none
    unfold Node.Keeps
    split
    case h_1 => exact h.block _ _ hsite
    case h_2 =>
      refine ⟨h.return_inside _ _ _ hsite, ?_⟩
      rintro e rfl d
      exact h.init_returns _ _ _ d hsite
    case h_3 => exact h.superclass _ _ _ _ _ hsite
    case h_4 => exact h.function _ _ hsite
    case h_5 => exact h.read _ _ _ hsite
    case h_6 => exact h.this_inside _ _ _ hsite
    case h_7 => exact h.super_inside _ _ _ _ hsite
    case h_8 => trivial
  · intro h
    constructor
    · exact fun _ _ hsite => h _ hsite
    · exact fun _ _ hsite => h _ hsite
    · exact fun _ _ _ hsite => h _ hsite
    · exact fun _ _ _ hsite => (h _ hsite).1
    · exact fun _ _ _ d hsite => (h _ hsite).2 _ rfl d
    · exact fun _ _ _ hsite => h _ hsite
    · exact fun _ _ _ _ hsite => h _ hsite
    · exact fun _ _ _ _ _ hsite => h _ hsite

/-! ## What the resolver knows about a place -/

namespace Path

/-- The kind of the nearest function around a place. -/
def functionContext (path : Path) : FunctionContext :=
  match path.function? with
  | some (.function _) => .function
  | some (.method d) => if d.name.lexeme = "init" then .initializer else .method
  | _ => .none

/-- The kind of the nearest class around a place. -/
def classContext (path : Path) : ClassContext :=
  match path.class? with
  | some c => Stmt.classContext c.superclass
  | none => .none

/-- What the resolver keeps of the constructs around a place. -/
def context (path : Path) : ResolveContext :=
  ⟨path.functionContext, path.classContext⟩

variable {path : Path}

/-- The resolver takes a path to be outside of classes just if no class is around it. -/
theorem classContext_eq_none_iff : path.classContext = .none ↔ path.class? = none := by
  unfold classContext
  cases hcls : path.class? with
  | none => simp
  | some c => cases hsuper : c.superclass <;> simp [Stmt.classContext, hsuper]

/-- The resolver takes a path to be in a subclass just if the class around it has a superclass. -/
theorem classContext_eq_subclass_iff :
    path.classContext = .subclass ↔ ∃ c, path.class? = some c ∧ c.superclass ≠ none := by
  unfold classContext
  cases hcls : path.class? with
  | none => simp
  | some c => cases hsuper : c.superclass <;> simp [Stmt.classContext, hsuper]

/-- The nearest function is a function or a method. -/
theorem isFunction_of_function? {construct : Construct} (h : path.function? = some construct) :
    construct.isFunction = true :=
  List.find?_some h

/-- The resolver takes a path to be outside of functions just if no function is around it. -/
theorem functionContext_eq_none_iff : path.functionContext = .none ↔ path.function? = none := by
  unfold functionContext
  cases hfunction : path.function? with
  | none => simp
  | some construct =>
    have h := isFunction_of_function? hfunction
    cases construct with
    | function => simp
    | method d => by_cases hinit : d.name.lexeme = "init" <;> simp [hinit]
    | block | cls | initializer => simp [Construct.isFunction] at h

/-- The resolver takes a path to be in an initializer just if the function around it is a method of
    that name. -/
theorem functionContext_eq_initializer_iff : path.functionContext = .initializer ↔
    ∃ d, path.function? = some (.method d) ∧ d.name.lexeme = "init" := by
  unfold functionContext
  cases hfunction : path.function? with
  | none => simp
  | some construct =>
    cases construct with
    | method d => by_cases hinit : d.name.lexeme = "init" <;> simp [hinit]
    | function | block | cls | initializer => simp

/-- Some class stands around a place exactly if there is a nearest one. -/
theorem class?_ne_none_iff : path.class? ≠ none ↔ ∃ c, .cls c ∈ path := by
  induction path with
  | nil => simp [class?]
  | cons construct outer ih =>
    cases construct with
    | cls c => simp [class?]
    | block | function | method | initializer => simpa [class?] using ih

end Path

/-- Names that are new in a scope where some are declared already. -/
def Fresh (declared names : List String) : Prop :=
  names.Nodup ∧ ∀ name ∈ names, name ∉ declared

namespace Fresh

variable {declared names names' : List String} {name : String}

/-- No names are fresh anywhere. -/
@[simp] theorem nil_right : Fresh declared [] := by
  simp [Fresh]

/-- Where nothing is declared names are fresh if they differ from each other. -/
@[simp] theorem nil_left : Fresh [] names ↔ names.Nodup := by
  simp [Fresh]

/-- Names are fresh in two parts if the second ones are fresh behind the first. -/
theorem append_iff :
    Fresh declared (names ++ names') ↔ Fresh declared names ∧ Fresh (names ++ declared) names' := by
  simp only [Fresh, List.nodup_append, List.mem_append, not_or]
  constructor
  · rintro ⟨⟨h, h', hdisjoint⟩, hnew⟩
    refine ⟨⟨h, fun x hx => hnew x (.inl hx)⟩, h', fun x hx => ⟨?_, hnew x (.inr hx)⟩⟩
    -- that the two parts share no name is half of the second ones being fresh
    intro hmem
    exact hdisjoint x hmem x hx rfl
  · rintro ⟨⟨h, hnew⟩, h', hnew'⟩
    refine ⟨⟨h, h', ?_⟩, fun x hx => hx.elim (hnew x) fun hx => (hnew' x hx).2⟩
    rintro x hx _ hx' rfl
    exact (hnew' x hx').1 hx

/-- One name is fresh if it is not declared. -/
@[simp] theorem singleton_iff : Fresh declared [name] ↔ name ∉ declared := by
  simp [Fresh]

/-- Several names are fresh if the first one is and the others are behind it. -/
theorem cons_iff :
    Fresh declared (name :: names) ↔ name ∉ declared ∧ Fresh (name :: declared) names := by
  have h : Fresh declared ([name] ++ names) ↔ _ := append_iff
  simpa using h

end Fresh

namespace StaticScopes

/-- The innermost scope of the resolver has the names that are declared so far in the scope around
    a place, each with a value. -/
inductive Knows (path : Path) (declared : List String) : StaticScopes → Prop
  | outside (h : path.isLocal = false) : Knows path declared []
  | inside {innermost : NameTable Bool} {outer : StaticScopes} (h : path.isLocal = true)
      (hget : ∀ name, innermost.get? name = if name ∈ declared then some true else none) :
      Knows path declared (innermost :: outer)

namespace Knows

variable {scopes : StaticScopes} {path : Path} {declared declared' : List String}

/-- The order in which names are declared does not matter. -/
theorem congr (h : scopes.Knows path declared) (hmem : ∀ x, x ∈ declared ↔ x ∈ declared') :
    scopes.Knows path declared' := by
  cases h with
  | outside h => exact .outside h
  | inside h hget => exact .inside h fun x => by rw [hget, if_congr (hmem x) rfl rfl]

/-- No name is without value outside of its declaration. -/
theorem not_inInitializerOf (h : scopes.Knows path declared) (x : String) :
    scopes.inInitializerOf x = false := by
  cases h with
  | outside => rfl
  | inside _ hget =>
    rw [inInitializerOf, hget x]
    split <;> simp

/-- A new scope, and what stands around places in it. -/
theorem openEmpty (scopes : StaticScopes) {construct : Construct} (h : construct.opensScope = true)
    (path : Path) : Knows (construct :: path) [] (.empty :: scopes) :=
  .inside (by simp [Path.isLocal, h]) fun x => by simp

/-- The faults of a declaration. -/
theorem noFault_declare (h : scopes.Knows path declared) (name : Token) :
    NoFault (scopes.declare name).2 ↔ (path.isLocal = true → name.lexeme ∉ declared) := by
  cases h with
  | outside h => simp [declare, NoFault, h]
  | inside h hget =>
    by_cases hmem : name.lexeme ∈ declared
    · simp [declare, NameTable.contains, hget, hmem, h]
    · simp [declare, NameTable.contains, hget, hmem, NoFault]

/-- Behind a declaration, also behind a faulty one. -/
theorem define (h : scopes.Knows path declared) (name : Token) :
    ((scopes.declare name).1.define name.lexeme).Knows path (name.lexeme :: declared) := by
  cases h with
  | outside h => exact .outside h
  | inside h hget =>
    rw [declare]
    split
    · refine .inside h fun x => ?_
      rw [NameTable.get?_insert, hget]
      -- a faulty declaration leaves the table, and defining the name then changes nothing in it
      by_cases heq : name.lexeme = x
      · simp [heq]
      · simp [heq, Ne.symm heq]
    · refine .inside h fun x => ?_
      rw [NameTable.get?_insert, NameTable.get?_insert, hget]
      by_cases heq : name.lexeme = x
      · simp [heq]
      · simp [heq, Ne.symm heq]

/-- In the initializer of a new name, this one name has no value. -/
theorem inInitializerOf_declare (h : scopes.Knows path declared) {name : Token}
    (hnew : path.isLocal = true → name.lexeme ∉ declared) (hpath : ∀ x, ¬ path.Initializes x)
    (x : String) : (scopes.declare name).1.inInitializerOf x = true ↔
      Path.Initializes (.initializer name :: path) x := by
  simp only [Path.Initializes, hpath, or_false]
  cases h with
  | outside h => simp [declare, inInitializerOf, h]
  | @inside innermost _ h hget =>
    have hcontains : innermost.contains name.lexeme = false := by
      rw [NameTable.contains, hget, if_neg (hnew h)]
      rfl
    rw [declare, hcontains]
    simp only [Bool.false_eq_true, if_false, inInitializerOf, NameTable.get?_insert, hget, h]
    by_cases heq : name.lexeme = x
    · simp [heq]
    · -- any other name has a value if it is declared here at all
      by_cases hmem : x ∈ declared <;> simp [heq, hmem]

/-- Names that are declared one after the other. -/
theorem introduce (h : scopes.Knows path declared) (names : List Token) :
    (NoFault (scopes.introduce names).2 ↔
      (path.isLocal = true → Fresh declared (names.map (·.lexeme)))) ∧
    (scopes.introduce names).1.Knows path (names.map (·.lexeme) ++ declared) := by
  induction names generalizing scopes declared with
  | nil => exact ⟨by simp [StaticScopes.introduce, NoFault], h⟩
  | cons name names ih =>
    obtain ⟨hfault, hknows⟩ := ih (h.define name)
    rw [introduce_cons]
    -- the first name counts among the declared ones for the rest
    refine ⟨?_, hknows.congr fun x => ?_⟩
    · simp only [NoFault.append_iff, h.noFault_declare, hfault, List.map_cons, Fresh.cons_iff,
        imp_and]
    · simp only [List.map_cons, List.cons_append, List.mem_append, List.mem_cons]
      exact or_left_comm

end Knows

end StaticScopes

/-! ## What the resolver finds -/

namespace Expr

variable {scopes : StaticScopes}

/-- To look for a name is never an error of its own. -/
theorem noFault_refer (scopes : StaticScopes) (id : NodeId) (name : Token) :
    NoFault (scopes.refer id name) := by
  unfold StaticScopes.refer
  split <;> simp [NoFault]

mutual

/-- The faults in an expression. -/
theorem noFault_resolve (path : Path)
    (h : ∀ x, scopes.inInitializerOf x = true ↔ path.Initializes x) (e : Expr) :
    NoFault (e.resolve path.classContext scopes) ↔ KeptAt (e.sites path) := by
  match e with
  | literal _ => simp [resolve, sites, parts, Node.Keeps, NoFault]
  | grouping inner =>
    have ih := inner.noFault_resolve path h
    simpa [resolve, sites, parts, Node.Keeps] using ih
  | unary _ operand =>
    have ih := operand.noFault_resolve path h
    simpa [resolve, sites, parts, Node.Keeps] using ih
  | binary _ left right | logical _ left right =>
    have ihleft := left.noFault_resolve path h
    have ihright := right.noFault_resolve path h
    simp only [sites] at ihleft ihright
    simp [resolve, sites, parts, Node.Keeps, ihleft, ihright]
  -- the one rule that reads the scopes: they agree with the path on what is being initialized
  | var id name =>
    by_cases hinit : scopes.inInitializerOf name.lexeme = true
    · have hinside := (h _).mp hinit
      simp [resolve, sites, parts, Node.Keeps, hinit, hinside]
    · have houtside := mt (h _).mpr hinit
      simp [resolve, sites, parts, Node.Keeps, hinit, houtside, noFault_refer]
  | assign id name value =>
    have ih := value.noFault_resolve path h
    simp only [sites] at ih
    simp [resolve, sites, parts, Node.Keeps, ih, noFault_refer]
  | call callee _ arguments =>
    have ihcallee := callee.noFault_resolve path h
    have iharguments := noFault_resolveList path h arguments
    simp only [sites] at ihcallee
    simp [resolve, sites, parts, Node.Keeps, ihcallee, iharguments]
  | get object _ =>
    have ih := object.noFault_resolve path h
    simpa [resolve, sites, parts, Node.Keeps] using ih
  | set object _ value =>
    have ihobject := object.noFault_resolve path h
    have ihvalue := value.noFault_resolve path h
    simp only [sites] at ihobject ihvalue
    simp [resolve, sites, parts, Node.Keeps, ihobject, ihvalue, and_comm]
  | this id keyword =>
    simp only [resolve, sites, parts, List.map_cons, List.map_nil, KeptAt.cons_iff, KeptAt.nil,
      and_true, Node.Keeps, ← Path.class?_ne_none_iff, ne_eq, ← Path.classContext_eq_none_iff]
    cases path.classContext <;> simp [noFault_refer]
  | super id keyword _ =>
    simp only [resolve, sites, parts, List.map_cons, List.map_nil, KeptAt.cons_iff, KeptAt.nil,
      and_true, Node.Keeps, ← Path.classContext_eq_subclass_iff, NoFault.append_iff, noFault_refer]
    cases path.classContext <;> simp [NoFault]

/-- The resolver finds no fault in expressions just if each part of them keeps the rules. -/
theorem noFault_resolveList (path : Path)
    (h : ∀ x, scopes.inInitializerOf x = true ↔ path.Initializes x) (es : List Expr) :
    NoFault (resolveList path.classContext scopes es) ↔
      KeptAt ((partsList es).map fun part => ⟨.expression part, path⟩) := by
  match es with
  | [] => simp [resolveList, partsList, NoFault]
  | e :: rest =>
    have ih := e.noFault_resolve path h
    have ihrest := noFault_resolveList path h rest
    simp only [sites] at ih
    simp [resolveList, partsList, ih, ihrest]

end

/-- The faults in an expression that may be missing. -/
theorem noFault_resolveOption (path : Path)
    (h : ∀ x, scopes.inInitializerOf x = true ↔ path.Initializes x) (o : Option Expr) :
    NoFault (resolveOption path.classContext scopes o) ↔ KeptAt (sitesOption path o) := by
  cases o with
  | none => simp [resolveOption, sitesOption, NoFault]
  | some e => exact e.noFault_resolve path h

end Expr

/-- What is found in a part of a program that declares some names, and the scopes behind it: no
    fault exactly if the names are new and the rules hold at the places in it. -/
structure Resolved.Judges (r : Resolved) (path : Path) (declared names : List String)
    (sites : List Site) : Prop where
  noFault_iff : NoFault r.2 ↔ (path.isLocal = true → Fresh declared names) ∧ KeptAt sites
  knows : r.1.Knows path (names ++ declared)

namespace Resolved.Judges

variable {scopes : StaticScopes} {path : Path} {r r' : Resolved} {names names' declared : List String}
  {sites sites' : List Site} {found : List Finding}

/-- Where there is no site and no declaration nothing is found. -/
theorem nil (h : scopes.Knows path declared) : Judges (scopes, []) path declared [] [] :=
  ⟨by simp [NoFault], h⟩

/-- A part that declares nothing. -/
theorem of_noFault_iff (h : scopes.Knows path declared) (hfound : NoFault found ↔ KeptAt sites) :
    Judges (scopes, found) path declared [] sites :=
  ⟨by simp [hfound], h⟩

/-- One part after the other. -/
theorem append (h : r.Judges path declared names sites)
    (h' : r'.Judges path (names ++ declared) names' sites') :
    Judges (r'.1, r.2 ++ r'.2) path declared (names ++ names') (sites ++ sites') := by
  refine ⟨?_, h'.knows.congr fun x => ?_⟩
  · simp only [NoFault.append_iff, h.noFault_iff, h'.noFault_iff, Fresh.append_iff,
      KeptAt.append_iff, imp_and]
    exact and_and_and_comm
  · simp only [List.mem_append]
    exact or_left_comm.trans or_assoc.symm

/-- The rules at the node itself. -/
theorem node (h : r.Judges path declared names sites) {node : Node} (hnode : node.Keeps path) :
    r.Judges path declared names (⟨node, path⟩ :: sites) :=
  ⟨by simp [h.noFault_iff, hnode], h.knows⟩

/-- A declaration of one name, as of functions and classes. -/
theorem introduce (h : scopes.Knows path declared) (name : Token) :
    Judges (scopes.introduce [name]) path declared [name.lexeme] [] := by
  obtain ⟨hfault, hknows⟩ := h.introduce [name]
  exact ⟨by simpa using hfault, hknows⟩

end Resolved.Judges

namespace Stmt

/-- Where a `return` may stand. -/
theorem noFault_returnFaults (path : Path) (keyword : Token) (value : Option Expr) :
    NoFault (returnFaults path.functionContext keyword value) ↔
      Node.Keeps path (.statement (.ret keyword value)) := by
  have hnone := path.functionContext_eq_none_iff
  have hinit := path.functionContext_eq_initializer_iff
  simp only [Node.Keeps, ne_eq, ← hnone]
  cases value with
  | none => cases path.functionContext <;> simp [returnFaults, NoFault]
  | some e =>
    -- only a `return` with a value asks whether it stands in an initializer
    have hinit : path.functionContext ≠ .initializer ↔
        ∀ d, path.function? = some (.method d) → d.name.lexeme ≠ "init" := by
      rw [ne_eq, hinit]
      simp
    simp only [Option.mem_def, Option.some.injEq, forall_eq', ← hinit]
    cases path.functionContext <;> simp [returnFaults, NoFault]

/-- A class is not its own superclass. -/
theorem noFault_resolveSuperclass {scopes : StaticScopes} {path : Path} {c : ClassDecl}
    {superclass : Expr} (hsuper : c.superclass = some superclass)
    (h : ∀ x, scopes.inInitializerOf x = true ↔ path.Initializes x) :
    NoFault (resolveSuperclass scopes c.name superclass) ↔
      Node.Keeps path (.statement (.classDecl c)) ∧ KeptAt (superclass.sites (.cls c :: path)) := by
  have hcls : Path.classContext (.cls c :: path) = .subclass := by
    simp [Path.classContext, Path.class?, Stmt.classContext, hsuper]
  have hresolve := superclass.noFault_resolve (.cls c :: path) h
  rw [hcls] at hresolve
  unfold resolveSuperclass
  rw [NoFault.append_iff, hresolve]
  obtain ⟨name, _, methods⟩ := c
  cases hsuper
  refine and_congr_left fun _ => ?_
  cases superclass with
  | var id superName =>
    -- the fault is about the name alone, wherever the class is declared
    by_cases heq : superName.lexeme = name.lexeme
    · simp [Node.Keeps, heq]
    · simp [Node.Keeps, heq, NoFault]
  | _ => simp [Node.Keeps, NoFault]

mutual

/-- The faults in a statement, and what is known behind it. -/
theorem resolve_judges {scopes : StaticScopes} {path : Path} {declared : List String}
    (h : scopes.Knows path declared) (hpath : ∀ x, ¬ path.Initializes x) (s : Stmt) :
    (s.resolve path.context scopes).Judges path declared s.names (s.sites path) := by
  have hinit : ∀ x, scopes.inInitializerOf x = true ↔ path.Initializes x := by
    simp [h.not_inInitializerOf, hpath]
  match s with
  | expression value | print value =>
    exact (Resolved.Judges.of_noFault_iff h (value.noFault_resolve path hinit)).node trivial
  | varDecl name initializer =>
    refine Resolved.Judges.node ⟨?_, h.define name⟩ trivial
    have hresolve : (resolve path.context scopes (varDecl name initializer)).2 =
        (scopes.declare name).2 ++
          Expr.resolveOption path.classContext (scopes.declare name).1 initializer := rfl
    rw [hresolve, NoFault.append_iff, h.noFault_declare, names, Fresh.singleton_iff]
    -- only a new name is without value in its initializer
    refine and_congr_right fun hnew => ?_
    exact Expr.noFault_resolveOption (.initializer name :: path)
      (h.inInitializerOf_declare hnew hpath) initializer
  | block body =>
    have hopen : StaticScopes.Knows (.block body :: path) [] (.empty :: scopes) :=
      .openEmpty scopes rfl path
    have hbody := resolveList_judges hopen hpath body
    refine ⟨?_, h⟩
    have hresolve : (resolve path.context scopes (block body)).2 =
        (resolveList (Path.context (.block body :: path)) (.empty :: scopes) body).2 := rfl
    rw [hresolve, hbody.noFault_iff]
    simp [names, sites, Node.Keeps, Path.isLocal, Construct.opensScope]
  | cond condition thenBranch none =>
    have hcondition := Resolved.Judges.of_noFault_iff h (condition.noFault_resolve path hinit)
    have hthen := thenBranch.resolve_judges h hpath
    exact (hcondition.append hthen).node trivial
  | cond condition thenBranch (some elseBranch) =>
    have hcondition := Resolved.Judges.of_noFault_iff h (condition.noFault_resolve path hinit)
    have hthen := thenBranch.resolve_judges h hpath
    have helse := elseBranch.resolve_judges hthen.knows hpath
    exact ((hcondition.append hthen).append helse).node trivial
  | loop condition body =>
    have hcondition := Resolved.Judges.of_noFault_iff h (condition.noFault_resolve path hinit)
    have hbody := body.resolve_judges h hpath
    exact (hcondition.append hbody).node trivial
  | funDecl ⟨name, params, body⟩ =>
    have hname := Resolved.Judges.introduce h name
    have hbody := noFault_resolveFunction (.function ⟨name, params, body⟩) path
      (scopes.introduce [name]).1 rfl hpath ⟨name, params, body⟩
    exact (hname.append (.of_noFault_iff hname.knows hbody)).node trivial
  | ret keyword value =>
    refine ⟨?_, h⟩
    have hresolve : (resolve path.context scopes (ret keyword value)).2 =
        returnFaults path.functionContext keyword value ++
          Expr.resolveOption path.classContext scopes value := rfl
    rw [hresolve, NoFault.append_iff, noFault_returnFaults, Expr.noFault_resolveOption path hinit]
    simp [names, sites]
  | classDecl ⟨name, none, methods⟩ =>
    have hname := Resolved.Judges.introduce h name
    have hmethods := noFault_resolveMethods ⟨name, none, methods⟩ path
      (methodScopes (scopes.introduce [name]).1 none) hpath methods
    have hresolve : resolve path.context scopes (classDecl ⟨name, none, methods⟩) =
        ((scopes.introduce [name]).1, (scopes.introduce [name]).2 ++ [] ++
          resolveMethods .base (methodScopes (scopes.introduce [name]).1 none) methods) := rfl
    rw [hresolve, List.append_nil]
    exact (hname.append (.of_noFault_iff hname.knows hmethods)).node trivial
  | classDecl ⟨name, some superclass, methods⟩ =>
    have hname := Resolved.Judges.introduce h name
    have hsettled : ∀ x, (scopes.introduce [name]).1.inInitializerOf x = true ↔
        path.Initializes x := by
      simp [hname.knows.not_inInitializerOf, hpath]
    have hsuperclass :=
      noFault_resolveSuperclass (c := ⟨name, some superclass, methods⟩) rfl hsettled
    have hmethods := noFault_resolveMethods ⟨name, some superclass, methods⟩ path
      (methodScopes (scopes.introduce [name]).1 (some superclass)) hpath methods
    have hresolve : resolve path.context scopes (classDecl ⟨name, some superclass, methods⟩) =
        ((scopes.introduce [name]).1, (scopes.introduce [name]).2 ++
          resolveSuperclass (scopes.introduce [name]).1 name superclass ++
          resolveMethods .subclass (methodScopes (scopes.introduce [name]).1 (some superclass))
            methods) := rfl
    rw [hresolve]
    refine ⟨?_, hname.knows⟩
    rw [NoFault.append_iff, NoFault.append_iff, hname.noFault_iff, hsuperclass]
    -- the rule for the class itself and those for its superclass are found together
    simp only [sites, Expr.sitesOption, KeptAt.cons_iff, KeptAt.append_iff, KeptAt.nil, and_true]
    rw [← hmethods, and_assoc, and_assoc]
    rfl

/-- The resolver finds no fault in statements just if the rules are kept at each site. -/
theorem resolveList_judges {scopes : StaticScopes} {path : Path} {declared : List String}
    (h : scopes.Knows path declared) (hpath : ∀ x, ¬ path.Initializes x) (body : List Stmt) :
    (resolveList path.context scopes body).Judges path declared (namesList body)
      (sitesList path body) := by
  match body with
  | [] => exact .nil h
  | s :: rest =>
    have hs := s.resolve_judges h hpath
    exact hs.append (resolveList_judges hs.knows hpath rest)

/-- The faults in a function; `path` is the one inside of it. -/
theorem noFault_resolveFunction (construct : Construct) (path : Path) (scopes : StaticScopes)
    (hopens : construct.opensScope = true)
    (hpath : ∀ x, ¬ Path.Initializes (construct :: path) x) (d : FunctionDecl) :
    NoFault (resolveFunction (Path.context (construct :: path)) scopes d) ↔
      KeptAt (functionSites (construct :: path) d) := by
  match d with
  | ⟨name, params, body⟩ =>
    -- parameters and the body share one scope, so the names of both are fresh together
    obtain ⟨hparams, hknows⟩ :=
      (StaticScopes.Knows.openEmpty scopes hopens path).introduce params
    have hbody := resolveList_judges hknows hpath body
    have hresolve : resolveFunction (Path.context (construct :: path)) scopes ⟨name, params, body⟩ =
        (StaticScopes.introduce (.empty :: scopes) params).2 ++
          (resolveList (Path.context (construct :: path))
            (StaticScopes.introduce (.empty :: scopes) params).1 body).2 := rfl
    have hlocal : Path.isLocal (construct :: path) = true := by simp [Path.isLocal, hopens]
    rw [hresolve, NoFault.append_iff, hparams, hbody.noFault_iff, functionSites, KeptAt.cons_iff,
      ← and_assoc]
    refine and_congr_left fun _ => ?_
    simp only [hlocal, true_imp_iff, Node.Keeps]
    rw [← Fresh.append_iff, Fresh.nil_left]

/-- The faults in the methods of a class. -/
theorem noFault_resolveMethods (c : ClassDecl) (path : Path) (scopes : StaticScopes)
    (hpath : ∀ x, ¬ path.Initializes x) (ds : List FunctionDecl) :
    NoFault (resolveMethods (classContext c.superclass) scopes ds) ↔
      KeptAt (methodSites (.cls c :: path) ds) := by
  match ds with
  | [] => simp [resolveMethods, methodSites, NoFault]
  | d :: rest =>
    have hd := noFault_resolveFunction (.method d) (.cls c :: path) scopes rfl hpath d
    have hrest := noFault_resolveMethods c path scopes hpath rest
    rw [methodSites, KeptAt.append_iff, ← hd, ← hrest]
    exact NoFault.append_iff

end

end Stmt

namespace Resolution

/-- No error is reported exactly if no fault is found. -/
theorem errors_eq_nil_iff_noFault {program : List Stmt} : (ofProgram program).errors = [] ↔
    NoFault (Stmt.resolveList ⟨.none, .none⟩ [] program).2 := by
  simp only [ofProgram, NoFault, List.filterMap_eq_nil_iff]
  constructor
  · intro h e he
    have := h _ he
    simp at this
  · intro h found hfound
    cases found with
    | distance => rfl
    | fault e => exact absurd hfound (h e)

/-- The resolver reports no error exactly if the rules of names hold at every node of the program,
    whatever its statements are. -/
theorem errors_eq_nil_iff_wellScoped (program : List Stmt) :
    (ofProgram program).errors = [] ↔ Stmt.WellScoped program := by
  have hknows : StaticScopes.Knows [] [] [] := .outside rfl
  have hjudges := Stmt.resolveList_judges hknows (fun _ => id) program
  rw [errors_eq_nil_iff_noFault, Stmt.wellScoped_iff]
  refine hjudges.noFault_iff.trans (and_iff_right ?_)
  nofun

/-- `{ var a = a; }` breaks one rule: the variable is read in its own initializer. -/
example : (ofProgram [.block [.varDecl (.name "a" 1) (some (.var ⟨0⟩ (.name "a" 1)))]]).errors =
    [⟨.ownInitializer, .name "a" 1⟩] := by
  rfl

end Resolution

end Lox
