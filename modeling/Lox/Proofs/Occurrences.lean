import Mathlib.Data.List.Perm.Subperm
import Lox.Proofs.ScopeRules
import Lox.Proofs.Tally

/-!
# Tokens in trees

Which tokens a tree is made of, and what each of them does there: it names something that is
declared, it is the name of a reference, or it does something else. A parser uses each token once,
so if no two tokens are equal, each stands at one place of the tree.

## Key results

- `Stmt.occurrences`: the tokens in a statement
- `Stmt.occurrences_stands`: what is declared in a scope is declared there once
- `Parsed.occurrences_subperm`: the tokens in a tree are among those that have been parsed
-/

namespace Lox

/-- The variable that a statement declares. -/
def Stmt.variable? : Stmt → Option Token
  | varDecl name _ => some name
  | _ => none

namespace Opener

/-- The statements that stand in a scope itself. -/
def body : Opener → List Stmt
  | block body => body
  | function declaration => declaration.body
  | this _ | super _ _ => []

/-- The parameters that are bound in a scope. -/
def params : Opener → List Token
  | function declaration => declaration.params
  | block _ | this _ | super _ _ => []

/-- The tokens that declare variables and parameters in a scope. -/
def vars (o : Opener) : List Token :=
  o.params ++ o.body.filterMap Stmt.variable?

/-- The tokens that declare anything in a scope. -/
def names (o : Opener) : List Token :=
  o.params ++ o.body.filterMap Stmt.declared?

/-- No name is declared twice in a scope. -/
def Proper (o : Opener) : Prop :=
  (o.names.map (·.lexeme)).Nodup

end Opener

/-- A token of a tree and what it does there. -/
inductive Occurrence where
  /-- The name of a variable or a parameter, where it is declared. The scope is missing outside of
      local ones. -/
  | var (scope : Option Opener) (name : Token)
  /-- The name of a function or a class, where it is declared. -/
  | definition (scope : Option Opener) (name : Token)
  | reference (r : Reference)
  | other (t : Token)

namespace Occurrence

def token : Occurrence → Token
  | var _ name => name
  | definition _ name => name
  | reference r => r.name
  | other t => t

def reference? : Occurrence → Option Reference
  | reference r => some r
  | _ => none

/-- What is declared in a scope is declared there once. -/
def Stands : Occurrence → Prop
  | var scope name => ∀ o ∈ scope, name ∈ o.vars ∧ o.Proper
  | definition scope name => ∀ o ∈ scope, name ∈ o.names ∧ o.Proper
  | _ => True

variable {scope : Option Opener} {name t : Token} {r : Reference}

@[simp] theorem token_var : (var scope name).token = name :=
  rfl

@[simp] theorem token_definition : (definition scope name).token = name :=
  rfl

@[simp] theorem token_reference : (reference r).token = r.name :=
  rfl

@[simp] theorem token_other : (other t).token = t :=
  rfl

@[simp] theorem reference?_var : (var scope name).reference? = none :=
  rfl

@[simp] theorem reference?_definition : (definition scope name).reference? = none :=
  rfl

@[simp] theorem reference?_reference : (reference r).reference? = some r :=
  rfl

@[simp] theorem reference?_other : (other t).reference? = none :=
  rfl

@[simp] theorem map_token_var (names : List Token) : (names.map (var scope)).map token = names := by
  rw [List.map_map]
  exact List.map_id names

@[simp] theorem filterMap_reference?_var (names : List Token) :
    (names.map (var scope)).filterMap reference? = [] := by
  simp [List.filterMap_map, Function.comp_def]

end Occurrence

namespace Expr

mutual

/-- The tokens in an expression. -/
def occurrences : Expr → List Occurrence
  | literal _ => []
  | grouping inner => inner.occurrences
  | unary operator operand => .other operator :: operand.occurrences
  | binary operator left right => left.occurrences ++ .other operator :: right.occurrences
  | logical operator left right => left.occurrences ++ .other operator :: right.occurrences
  | var id name => [.reference ⟨.var, id, name⟩]
  | assign id name value => .reference ⟨.assign, id, name⟩ :: value.occurrences
  | call callee paren arguments =>
    callee.occurrences ++ (occurrencesList arguments ++ [.other paren])
  | get object name => object.occurrences ++ [.other name]
  | set object name value => object.occurrences ++ .other name :: value.occurrences
  | this id keyword => [.reference ⟨.this, id, keyword⟩]
  | super id keyword method => [.reference ⟨.super, id, keyword⟩, .other method]

/-- The tokens in several expressions. -/
def occurrencesList : List Expr → List Occurrence
  | [] => []
  | e :: rest => e.occurrences ++ occurrencesList rest

end

/-- The tokens in an expression that may be missing. -/
def occurrencesOption : Option Expr → List Occurrence
  | none => []
  | some e => e.occurrences

end Expr

namespace Stmt

mutual

/-- The tokens in a statement that stands in a scope. -/
def occurrences (scope : Option Opener) : Stmt → List Occurrence
  | expression value => value.occurrences
  | print value => value.occurrences
  | varDecl name initializer => .var scope name :: Expr.occurrencesOption initializer
  | block body => occurrencesList (some (.block body)) body
  | cond condition thenBranch none => condition.occurrences ++ thenBranch.occurrences scope
  | cond condition thenBranch (some elseBranch) =>
    condition.occurrences ++ (thenBranch.occurrences scope ++ elseBranch.occurrences scope)
  | loop condition body => condition.occurrences ++ body.occurrences scope
  | funDecl declaration => .definition scope declaration.name :: occurrencesFunction declaration
  | ret keyword value => .other keyword :: Expr.occurrencesOption value
  | classDecl ⟨name, superclass, methods⟩ =>
    .definition scope name :: (Expr.occurrencesOption superclass ++ occurrencesMethods methods)

/-- The tokens in several statements that stand in a scope. -/
def occurrencesList (scope : Option Opener) : List Stmt → List Occurrence
  | [] => []
  | s :: rest => s.occurrences scope ++ occurrencesList scope rest

/-- The tokens in a function, without its name. -/
def occurrencesFunction : FunctionDecl → List Occurrence
  | ⟨name, params, body⟩ =>
    params.map (.var (some (.function ⟨name, params, body⟩))) ++
      occurrencesList (some (.function ⟨name, params, body⟩)) body

/-- The tokens in the methods of a class. -/
def occurrencesMethods : List FunctionDecl → List Occurrence
  | [] => []
  | d :: rest => .other d.name :: (occurrencesFunction d ++ occurrencesMethods rest)

end

end Stmt

/-! ## References -/

namespace Expr

mutual

/-- The references among the occurrences in an expression are its references, in the same order. -/
theorem filterMap_occurrences (e : Expr) : e.occurrences.filterMap (·.reference?) = e.references := by
  match e with
  | literal _ | var _ _ | this _ _ | super _ _ _ => rfl
  | grouping inner => exact inner.filterMap_occurrences
  -- an operator is a token that is no reference, so it is passed over
  | unary _ operand =>
    simp [occurrences, references, List.filterMap_cons, operand.filterMap_occurrences]
  | binary _ left right | logical _ left right =>
    simp [occurrences, references, List.filterMap_cons, left.filterMap_occurrences,
      right.filterMap_occurrences]
  | assign _ _ value => simp [occurrences, references, value.filterMap_occurrences]
  | call callee _ arguments =>
    simp [occurrences, references, callee.filterMap_occurrences,
      filterMap_occurrencesList arguments]
  | get object _ => simp [occurrences, references, object.filterMap_occurrences]
  | set object _ value =>
    simp [occurrences, references, List.filterMap_cons, object.filterMap_occurrences,
      value.filterMap_occurrences]

/-- The references among the occurrences in expressions are their references. -/
theorem filterMap_occurrencesList (es : List Expr) :
    (occurrencesList es).filterMap (·.reference?) = referencesList es := by
  match es with
  | [] => rfl
  | e :: rest =>
    simp [occurrencesList, referencesList, e.filterMap_occurrences, filterMap_occurrencesList rest]

end

/-- The references among the occurrences in an expression that may be missing are its references. -/
theorem filterMap_occurrencesOption (o : Option Expr) :
    (occurrencesOption o).filterMap (·.reference?) = referencesOption o := by
  cases o with
  | none => rfl
  | some e => exact e.filterMap_occurrences

end Expr

namespace Stmt

mutual

/-- The references are among the tokens, in the same order. -/
theorem filterMap_occurrences (scope : Option Opener) (s : Stmt) :
    (s.occurrences scope).filterMap (·.reference?) = s.references := by
  match s with
  | expression value | print value => exact value.filterMap_occurrences
  | varDecl _ initializer =>
    simp [occurrences, references, List.filterMap_cons, Expr.filterMap_occurrencesOption]
  | block body => exact filterMap_occurrencesList _ body
  | cond condition thenBranch none =>
    simp [occurrences, references, condition.filterMap_occurrences,
      thenBranch.filterMap_occurrences scope]
  | cond condition thenBranch (some elseBranch) =>
    simp [occurrences, references, condition.filterMap_occurrences,
      thenBranch.filterMap_occurrences scope, elseBranch.filterMap_occurrences scope]
  | loop condition body =>
    simp [occurrences, references, condition.filterMap_occurrences,
      body.filterMap_occurrences scope]
  | funDecl declaration =>
    simp [occurrences, references, List.filterMap_cons, filterMap_occurrencesFunction declaration]
  | ret _ value =>
    simp [occurrences, references, List.filterMap_cons, Expr.filterMap_occurrencesOption]
  | classDecl ⟨_, superclass, methods⟩ =>
    simp [occurrences, references, List.filterMap_cons, Expr.filterMap_occurrencesOption,
      filterMap_occurrencesMethods methods]

/-- The references among the occurrences in statements are their references. -/
theorem filterMap_occurrencesList (scope : Option Opener) (body : List Stmt) :
    (occurrencesList scope body).filterMap (·.reference?) = referencesList body := by
  match body with
  | [] => rfl
  | s :: rest =>
    simp [occurrencesList, referencesList, s.filterMap_occurrences scope,
      filterMap_occurrencesList scope rest]

/-- The references among the occurrences in a function are its references. -/
theorem filterMap_occurrencesFunction (d : FunctionDecl) :
    (occurrencesFunction d).filterMap (·.reference?) = functionReferences d := by
  match d with
  | ⟨_, _, body⟩ => simp [occurrencesFunction, functionReferences, filterMap_occurrencesList _ body]

/-- The references among the occurrences in methods are their references. -/
theorem filterMap_occurrencesMethods (ds : List FunctionDecl) :
    (occurrencesMethods ds).filterMap (·.reference?) = methodReferences ds := by
  match ds with
  | [] => rfl
  | d :: rest =>
    simp [occurrencesMethods, methodReferences, List.filterMap_cons, filterMap_occurrencesFunction d,
      filterMap_occurrencesMethods rest]

end

/-- The name of a reference is one of the tokens. -/
theorem reference_mem_occurrencesList {scope : Option Opener} {body : List Stmt} {r : Reference}
    (h : r ∈ referencesList body) : .reference r ∈ occurrencesList scope body := by
  rw [← filterMap_occurrencesList scope] at h
  obtain ⟨o, ho, hr⟩ := List.mem_filterMap.mp h
  cases o with
  | reference r' =>
    cases hr
    exact ho
  | var | definition | other => cases hr

end Stmt

/-! ## Declarations in their scopes -/

namespace Opener

variable {o : Opener} {body : List Stmt} {d : FunctionDecl}

/-- A variable of a scope is one of the names that are declared there. -/
theorem vars_subset_names (o : Opener) : o.vars ⊆ o.names := by
  refine List.append_subset.mpr ⟨List.subset_append_left .., fun t ht => ?_⟩
  obtain ⟨s, hs, hname⟩ := List.mem_filterMap.mp ht
  refine List.mem_append_right _ (List.mem_filterMap.mpr ⟨s, hs, ?_⟩)
  cases s with
  | varDecl => exact hname
  | _ => cases hname

/-- A name is declared by one token. -/
theorem Proper.eq_of_lexeme_eq (h : o.Proper) {t t' : Token} (ht : t ∈ o.names) (ht' : t' ∈ o.names)
    (heq : t.lexeme = t'.lexeme) : t = t' :=
  List.inj_on_of_nodup_map h ht ht' heq

/-- The names that the statements declare themselves are among those of the scope. -/
private theorem filterMap_declared?_sublist (body : List Stmt) :
    ((body.filterMap Stmt.declared?).map (·.lexeme)).Sublist (Stmt.namesList body) := by
  induction body with
  | nil => exact .slnil
  | cons s body ih =>
    have hnames : Stmt.namesList (s :: body) = s.names ++ Stmt.namesList body := rfl
    rw [hnames]
    cases s with
    | varDecl | funDecl | classDecl => exact ih.cons_cons _
    | _ => exact (List.nil_sublist _).append ih

/-- A block is proper if no name is declared in it twice. -/
theorem proper_block (h : (Stmt.namesList body).Nodup) : (block body).Proper :=
  (filterMap_declared?_sublist body).nodup h

/-- A function is proper if no name is declared twice by its parameters and its body. -/
theorem proper_function (h : (d.params.map (·.lexeme) ++ Stmt.namesList d.body).Nodup) :
    (function d).Proper := by
  have hsublist := (List.Sublist.refl (d.params.map (·.lexeme))).append
    (filterMap_declared?_sublist d.body)
  rw [← List.map_append] at hsublist
  exact hsublist.nodup h

end Opener

namespace Expr

mutual

/-- In an expression no name is declared, so every occurrence stands as it should. -/
theorem occurrences_stands (e : Expr) : ∀ x ∈ e.occurrences, x.Stands := by
  match e with
  | literal _ => exact fun _ h => absurd h List.not_mem_nil
  | grouping inner => exact inner.occurrences_stands
  | unary _ operand => exact List.forall_mem_cons.mpr ⟨trivial, operand.occurrences_stands⟩
  | binary _ left right | logical _ left right =>
    exact List.forall_mem_append.mpr
      ⟨left.occurrences_stands, List.forall_mem_cons.mpr ⟨trivial, right.occurrences_stands⟩⟩
  | var _ _ | this _ _ => exact List.forall_mem_singleton.mpr trivial
  | super _ _ _ => exact List.forall_mem_cons.mpr ⟨trivial, List.forall_mem_singleton.mpr trivial⟩
  | assign _ _ value => exact List.forall_mem_cons.mpr ⟨trivial, value.occurrences_stands⟩
  -- the token of a call is its closing parenthesis, so it comes last
  | call callee _ arguments =>
    exact List.forall_mem_append.mpr ⟨callee.occurrences_stands, List.forall_mem_append.mpr
      ⟨occurrencesList_stands arguments, List.forall_mem_singleton.mpr trivial⟩⟩
  | get object _ =>
    exact List.forall_mem_append.mpr
      ⟨object.occurrences_stands, List.forall_mem_singleton.mpr trivial⟩
  | set object _ value =>
    exact List.forall_mem_append.mpr
      ⟨object.occurrences_stands, List.forall_mem_cons.mpr ⟨trivial, value.occurrences_stands⟩⟩

/-- In expressions every occurrence stands as it should. -/
theorem occurrencesList_stands (es : List Expr) : ∀ x ∈ occurrencesList es, x.Stands := by
  match es with
  | [] => simp [occurrencesList]
  | e :: rest => exact List.forall_mem_append.mpr ⟨e.occurrences_stands, occurrencesList_stands rest⟩

end

/-- In an expression that may be missing every occurrence stands as it should. -/
theorem occurrencesOption_stands (o : Option Expr) : ∀ x ∈ occurrencesOption o, x.Stands := by
  cases o with
  | none => simp [occurrencesOption]
  | some e => exact e.occurrences_stands

end Expr

namespace Stmt

mutual

/-- What a statement declares in its scope is declared there once, if the rules of names hold. -/
theorem occurrences_stands {scope : Option Opener} {path : Path} (s : Stmt)
    (hproper : ∀ o ∈ scope, o.Proper)
    (hs : ∀ o ∈ scope, s.declared? = none ∨ s ∈ o.body) (hwf : s.WellFormed)
    (hkept : KeptAt (s.sites path)) : ∀ x ∈ s.occurrences scope, x.Stands := by
  match s with
  | expression value | print value => exact value.occurrences_stands
  | varDecl name initializer =>
    refine List.forall_mem_cons.mpr ⟨fun o ho => ⟨?_, hproper o ho⟩,
      Expr.occurrencesOption_stands initializer⟩
    -- a declaration is in the body of its scope, not the branch of a statement
    have hmem := (hs o ho).resolve_left nofun
    exact List.mem_append_right _ (List.mem_filterMap.mpr ⟨_, hmem, rfl⟩)
  | block body =>
    obtain ⟨hblock, hbody⟩ := KeptAt.cons_iff.mp hkept
    refine occurrencesList_stands body ?_ ?_ hwf hbody
    -- the block is now the scope that its statements declare in
    · rintro _ ⟨⟩
      exact Opener.proper_block hblock
    · rintro _ ⟨⟩
      exact fun s hs => hs
  | cond condition thenBranch none =>
    obtain ⟨-, hparts⟩ := KeptAt.cons_iff.mp hkept
    obtain ⟨-, hthen⟩ := KeptAt.append_iff.mp hparts
    exact List.forall_mem_append.mpr ⟨condition.occurrences_stands,
      thenBranch.occurrences_stands hproper (fun _ _ => .inl hwf.2.1) hwf.2.2 hthen⟩
  | cond condition thenBranch (some elseBranch) =>
    obtain ⟨-, hparts⟩ := KeptAt.cons_iff.mp hkept
    obtain ⟨hparts, helse⟩ := KeptAt.append_iff.mp hparts
    obtain ⟨-, hthen⟩ := KeptAt.append_iff.mp hparts
    exact List.forall_mem_append.mpr ⟨condition.occurrences_stands, List.forall_mem_append.mpr
      ⟨thenBranch.occurrences_stands hproper (fun _ _ => .inl hwf.2.1.1) hwf.2.1.2 hthen,
        elseBranch.occurrences_stands hproper (fun _ _ => .inl hwf.2.2.1) hwf.2.2.2 helse⟩⟩
  | loop condition body =>
    obtain ⟨-, hparts⟩ := KeptAt.cons_iff.mp hkept
    obtain ⟨-, hbody⟩ := KeptAt.append_iff.mp hparts
    exact List.forall_mem_append.mpr ⟨condition.occurrences_stands,
      body.occurrences_stands hproper (fun _ _ => .inl hwf.2.1) hwf.2.2 hbody⟩
  | funDecl declaration =>
    refine List.forall_mem_cons.mpr ⟨fun o ho => ⟨?_, hproper o ho⟩,
      occurrencesFunction_stands declaration hwf.2 (KeptAt.cons_iff.mp hkept).2⟩
    have hmem := (hs o ho).resolve_left nofun
    exact List.mem_append_right _ (List.mem_filterMap.mpr ⟨_, hmem, rfl⟩)
  | ret _ value =>
    exact List.forall_mem_cons.mpr ⟨trivial, Expr.occurrencesOption_stands value⟩
  | classDecl ⟨name, superclass, methods⟩ =>
    obtain ⟨-, hparts⟩ := KeptAt.cons_iff.mp hkept
    obtain ⟨-, hmethods⟩ := KeptAt.append_iff.mp hparts
    refine List.forall_mem_cons.mpr ⟨fun o ho => ⟨?_, hproper o ho⟩, List.forall_mem_append.mpr
      ⟨Expr.occurrencesOption_stands superclass, occurrencesMethods_stands methods hwf.2.2 hmethods⟩⟩
    have hmem := (hs o ho).resolve_left nofun
    exact List.mem_append_right _ (List.mem_filterMap.mpr ⟨_, hmem, rfl⟩)

/-- In statements of a proper scope every occurrence stands as it should. -/
theorem occurrencesList_stands {scope : Option Opener} {path : Path} (body : List Stmt)
    (hproper : ∀ o ∈ scope, o.Proper)
    (hbody : ∀ o ∈ scope, ∀ s ∈ body, s ∈ o.body) (hwf : WellFormedList body)
    (hkept : KeptAt (sitesList path body)) : ∀ x ∈ occurrencesList scope body, x.Stands := by
  match body with
  | [] => simp [occurrencesList]
  | s :: rest =>
    obtain ⟨hs, hrest⟩ := KeptAt.append_iff.mp hkept
    exact List.forall_mem_append.mpr
      ⟨s.occurrences_stands hproper (fun o ho => .inr (hbody o ho s List.mem_cons_self)) hwf.1 hs,
        occurrencesList_stands rest hproper
          (fun o ho s hs => hbody o ho s (List.mem_cons_of_mem _ hs)) hwf.2 hrest⟩

/-- In a function that is proper every occurrence stands as it should. -/
theorem occurrencesFunction_stands {path : Path} (d : FunctionDecl) (hwf : WellFormedFunction d)
    (hkept : KeptAt (functionSites path d)) : ∀ x ∈ occurrencesFunction d, x.Stands := by
  match d with
  | ⟨name, params, body⟩ =>
    obtain ⟨hfunction, hbody⟩ := KeptAt.cons_iff.mp hkept
    have hproper : ∀ o ∈ some (Opener.function ⟨name, params, body⟩), o.Proper := by
      rintro _ ⟨⟩
      exact Opener.proper_function hfunction
    refine List.forall_mem_append.mpr ⟨?_, occurrencesList_stands body hproper ?_ hwf.2 hbody⟩
    · intro x hx
      obtain ⟨param, hparam, rfl⟩ := List.mem_map.mp hx
      -- the parameters are in the scope of the body, in front of what it declares
      rintro _ ⟨⟩
      exact ⟨List.mem_append_left _ hparam, hproper _ rfl⟩
    · rintro _ ⟨⟩
      exact fun s hs => hs

/-- In methods that are proper every occurrence stands as it should. -/
theorem occurrencesMethods_stands {path : Path} (ds : List FunctionDecl) (hwf : WellFormedMethods ds)
    (hkept : KeptAt (methodSites path ds)) : ∀ x ∈ occurrencesMethods ds, x.Stands := by
  match ds with
  | [] => simp [occurrencesMethods]
  | d :: rest =>
    obtain ⟨hd, hrest⟩ := KeptAt.append_iff.mp hkept
    exact List.forall_mem_cons.mpr ⟨trivial, List.forall_mem_append.mpr
      ⟨occurrencesFunction_stands d hwf.1 hd, occurrencesMethods_stands rest hwf.2 hrest⟩⟩

end

end Stmt

/-! ## How often a token stands in a tree -/

/-- Counts a token. -/
def Tally.occurrence (t : Token) : Tally where
  token t' := if t' = t then 1 else 0
  id _ := 0
  supply _ := 0
  supply_le := by simp

variable (t : Token)

/-- Where the occurrences of a token are counted only that token weighs something. -/
@[simp] theorem Tally.token_occurrence (t' : Token) :
    (occurrence t).token t' = if t' = t then 1 else 0 :=
  rfl

/-- Where the occurrences of a token are counted identities weigh nothing. -/
@[simp] theorem Tally.id_occurrence (id : NodeId) : (occurrence t).id id = 0 :=
  rfl

/-- Where the occurrences of a token are counted a list weighs as often as it has the token. -/
@[simp] theorem Tally.tokens_occurrence (ts : List Token) :
    (occurrence t).tokens ts = ts.count t := by
  induction ts with
  | nil => rfl
  | cons t' ts ih =>
    show (if t' = t then 1 else 0) + (occurrence t).tokens ts = _
    rw [ih, List.count_cons, Nat.add_comm]
    simp

namespace Expr

mutual

/-- A token is counted once for each place where it stands. -/
theorem tally_occurrence (e : Expr) :
    e.tally (.occurrence t) = (e.occurrences.map (·.token)).count t := by
  match e with
  | literal _ => rfl
  | grouping inner => exact inner.tally_occurrence
  | unary _ operand =>
    simp [tally, occurrences, operand.tally_occurrence, List.count_cons, Nat.add_comm]
  | binary _ left right | logical _ left right =>
    simp [tally, occurrences, left.tally_occurrence, right.tally_occurrence, List.count_cons]
    omega
  | var _ _ | this _ _ => simp [tally, occurrences, List.count_cons]
  -- both tokens of a `super` are occurrences: the keyword and the name of the method
  | super _ _ _ => simp [tally, occurrences, List.count_cons, Nat.add_comm]
  | assign _ _ value =>
    simp [tally, occurrences, value.tally_occurrence, List.count_cons, Nat.add_comm]
  | call callee _ arguments =>
    simp [tally, occurrences, callee.tally_occurrence, tallyList_occurrence arguments,
      List.count_cons, Nat.add_assoc]
  | get object _ => simp [tally, occurrences, object.tally_occurrence, List.count_cons]
  | set object _ value =>
    simp [tally, occurrences, object.tally_occurrence, value.tally_occurrence, List.count_cons]
    omega

/-- How often a token is in expressions is how often it occurs there. -/
theorem tallyList_occurrence (es : List Expr) :
    tallyList (.occurrence t) es = ((occurrencesList es).map (·.token)).count t := by
  match es with
  | [] => rfl
  | e :: rest => simp [tallyList, occurrencesList, e.tally_occurrence, tallyList_occurrence rest]

end

/-- How often a token is in an expression that may be missing is how often it occurs there. -/
theorem tallyOption_occurrence (o : Option Expr) :
    tallyOption (.occurrence t) o = ((occurrencesOption o).map (·.token)).count t := by
  cases o with
  | none => rfl
  | some e => exact e.tally_occurrence t

end Expr

namespace Stmt

mutual

/-- A token is counted once for each place where it stands. -/
theorem tally_occurrence (scope : Option Opener) (s : Stmt) :
    s.tally (.occurrence t) = ((s.occurrences scope).map (·.token)).count t := by
  match s with
  | expression value | print value => exact value.tally_occurrence t
  | varDecl _ initializer =>
    simp [tally, occurrences, Expr.tallyOption_occurrence, List.count_cons, Nat.add_comm]
  | block body => exact tallyList_occurrence _ body
  | cond condition thenBranch none =>
    simp [tally, occurrences, condition.tally_occurrence, thenBranch.tally_occurrence scope]
  | cond condition thenBranch (some elseBranch) =>
    simp [tally, occurrences, condition.tally_occurrence, thenBranch.tally_occurrence scope,
      elseBranch.tally_occurrence scope, Nat.add_assoc]
  | loop condition body =>
    simp [tally, occurrences, condition.tally_occurrence, body.tally_occurrence scope]
  | funDecl declaration =>
    simp [tally, occurrences, tallyFunction_occurrence declaration, List.count_cons, Nat.add_comm]
  | ret _ value =>
    simp [tally, occurrences, Expr.tallyOption_occurrence, List.count_cons, Nat.add_comm]
  | classDecl ⟨_, superclass, methods⟩ =>
    simp [tally, occurrences, Expr.tallyOption_occurrence, tallyMethods_occurrence methods,
      List.count_cons]
    omega

/-- How often a token is in statements is how often it occurs there. -/
theorem tallyList_occurrence (scope : Option Opener) (body : List Stmt) :
    tallyList (.occurrence t) body = ((occurrencesList scope body).map (·.token)).count t := by
  match body with
  | [] => rfl
  | s :: rest =>
    simp [tallyList, occurrencesList, s.tally_occurrence scope, tallyList_occurrence scope rest]

/-- How often a token is in a function is how often it occurs there, its name included. -/
theorem tallyFunction_occurrence (d : FunctionDecl) :
    tallyFunction (.occurrence t) d =
      (if d.name = t then 1 else 0) + ((occurrencesFunction d).map (·.token)).count t := by
  match d with
  | ⟨name, params, body⟩ =>
    have hparams : (params.map (.var (some (.function ⟨name, params, body⟩)))).map
        Occurrence.token = params := Occurrence.map_token_var params
    have hbody := tallyList_occurrence (some (.function ⟨name, params, body⟩)) body
    simp only [tallyFunction, occurrencesFunction, List.map_append, List.count_append, hparams, hbody,
      Tally.tokens_occurrence, Tally.token_occurrence, Nat.add_assoc]

/-- How often a token is in methods is how often it occurs there. -/
theorem tallyMethods_occurrence (ds : List FunctionDecl) :
    tallyMethods (.occurrence t) ds = ((occurrencesMethods ds).map (·.token)).count t := by
  match ds with
  | [] => rfl
  | d :: rest =>
    simp [tallyMethods, occurrencesMethods, tallyFunction_occurrence d, tallyMethods_occurrence rest,
      List.count_cons]
    omega

end

end Stmt

namespace Parsed

/-- The tokens in a tree are among those that have been parsed, each at most as often. -/
theorem occurrences_subperm (tokens : List Token) (n : Nat) :
    ((Stmt.occurrencesList none (ofTokens tokens n).statements).map (·.token)).Subperm tokens := by
  refine List.subperm_iff_count.mpr fun t => ?_
  have htally := tallyList_ofTokens (.occurrence t) tokens n
  rw [Stmt.tallyList_occurrence t none, Tally.tokens_occurrence] at htally
  exact htally

/-- If no two tokens have the same line, each line stands at one place of the tree. -/
theorem occurrences_nodup {tokens : List Token} (h : (tokens.map (·.line)).Nodup) (n : Nat) :
    ((Stmt.occurrencesList none (ofTokens tokens n).statements).map (·.token.line)).Nodup := by
  obtain ⟨ts, hperm, hsublist⟩ := occurrences_subperm tokens n
  have hts : (ts.map (·.line)).Nodup := (hsublist.map _).nodup h
  have hlines := (hperm.map (·.line)).nodup_iff.mp hts
  rwa [List.map_map] at hlines

end Parsed

end Lox
