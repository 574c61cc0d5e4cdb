import Lox.Proofs.Grammar
import Lox.Syntax.Reference

/-!
# Other lines and identities

A tree keeps its shape when its tokens and the identities of its nodes are mapped to others. There is
one traversal for all such maps: a relabelling maps lines and identities, and a map of tokens leaves
the identities as they are. Tokens on other lines have the same derivations, and the numbers of a
derivation may start anywhere.

## Key results

- `Relabels`: what maps tokens and identities, and so expressions and statements
- `Stmt.relabel_relabel`, `Stmt.relabel_eq_self`: relabelling twice, and relabelling nothing
- `Phrase.Derives.relabel`, `Clause.Derives.relabel`: derivations of relabelled tokens
- `Clause.Derives.renumber`: a derivation that starts at any number
-/

namespace Lox

/-- What lines and the identities of nodes are mapped to. -/
structure Relabeling where
  id : Nat → Nat
  line : Nat → Nat

namespace Relabeling

/-- Lines are mapped, identities kept. -/
def ofLine (line : Nat → Nat) : Relabeling :=
  ⟨fun n => n, line⟩

/-- Identities are mapped, lines kept. -/
def ofId (id : Nat → Nat) : Relabeling :=
  ⟨id, fun n => n⟩

/-- Nothing is changed. -/
def refl : Relabeling :=
  ⟨fun n => n, fun n => n⟩

/-- One mapping after another. -/
def comp (r r' : Relabeling) : Relabeling :=
  ⟨fun n => r.id (r'.id n), fun n => r.line (r'.line n)⟩

/-- The lines and the identities below a number stay as they are, and nothing is mapped below it
    from above. -/
structure Keeps (r : Relabeling) (n : Nat) : Prop where
  line : ∀ l, r.line l = l
  id : ∀ i, i < n → r.id i = i
  le : ∀ i, n ≤ i → n ≤ r.id i

/-- What is kept below a number is kept below a smaller one. -/
theorem Keeps.mono {r : Relabeling} {n n' : Nat} (h : r.Keeps n') (hle : n ≤ n') : r.Keeps n := by
  refine ⟨h.line, fun i hi => h.id i (by omega), fun i hi => ?_⟩
  by_cases hlt : i < n'
  · rw [h.id i hlt]
    exact hi
  · have := h.le i (by omega)
    omega

end Relabeling

/-- What can be done to each token and to each identity of a tree. -/
class Relabels (R : Type) where
  /-- What becomes of a token. -/
  token : R → Token → Token
  /-- What becomes of an identity. -/
  id : R → NodeId → NodeId

@[default_instance]
instance : Relabels Relabeling where
  token r t := { t with line := r.line t.line }
  id r id := ⟨r.id id.index⟩

/-- A map of tokens changes no identity. -/
instance : Relabels (Token → Token) where
  token f t := f t
  id _ id := id

/-- What becomes of a token. -/
def Token.relabel {R : Type} [Relabels R] (r : R) (t : Token) : Token :=
  Relabels.token r t

/-- What becomes of an identity. -/
def NodeId.relabel {R : Type} [Relabels R] (r : R) (id : NodeId) : NodeId :=
  Relabels.id r id

/-- A map of tokens does to a token what it says. -/
@[simp] theorem Token.relabel_apply (f : Token → Token) (t : Token) : t.relabel f = f t :=
  rfl

/-- A map of tokens leaves the identities of nodes. -/
@[simp] theorem NodeId.relabel_apply (f : Token → Token) (id : NodeId) : id.relabel f = id :=
  rfl

/-- A token is moved to another line and keeps all else. -/
theorem Token.relabel_line (r : Relabeling) (t : Token) :
    t.relabel r = { t with line := r.line t.line } :=
  rfl

/-- The number of a node is mapped. -/
theorem NodeId.relabel_index (r : Relabeling) (id : NodeId) : id.relabel r = ⟨r.id id.index⟩ :=
  rfl

/-- A token keeps its kind on another line. -/
@[simp] theorem Token.relabel_kind (r : Relabeling) (t : Token) : (t.relabel r).kind = t.kind :=
  rfl

/-- A token keeps its lexeme on another line. -/
@[simp] theorem Token.relabel_lexeme (r : Relabeling) (t : Token) :
    (t.relabel r).lexeme = t.lexeme :=
  rfl

/-- A token is of the same kind on another line. -/
theorem Token.relabel_kind_eq {t : Token} {kind : TokenKind} (r : Relabeling)
    (h : t.kind = kind) : (t.relabel r).kind = kind :=
  h

/-- Relabelling a token twice is relabelling it once. -/
@[simp] theorem Token.relabel_relabel (r r' : Relabeling) (t : Token) :
    (t.relabel r').relabel r = t.relabel (r.comp r') :=
  rfl

/-- Relabelling an identity twice is relabelling it once. -/
@[simp] theorem NodeId.relabel_relabel (r r' : Relabeling) (id : NodeId) :
    (id.relabel r').relabel r = id.relabel (r.comp r') :=
  rfl

/-- A token stays as it is if its line does. -/
theorem Token.relabel_eq_self {r : Relabeling} (hr : ∀ l, r.line l = l) (t : Token) :
    t.relabel r = t := by
  rw [Token.relabel_line, hr]

/-- An identity below the number is kept. -/
theorem Relabeling.Keeps.relabel_eq {r : Relabeling} {n : Nat} (h : r.Keeps n) {id : NodeId}
    (hid : id.index < n) : id.relabel r = id := by
  rw [NodeId.relabel_index, h.id _ hid]

namespace Expr

variable {R : Type} [Relabels R] (r : R)

mutual

/-- An expression with other lines and identities. -/
def relabel : Expr → Expr
  | literal value => literal value
  | grouping inner => grouping inner.relabel
  | unary operator operand => unary (operator.relabel r) operand.relabel
  | binary operator left right => binary (operator.relabel r) left.relabel right.relabel
  | logical operator left right => logical (operator.relabel r) left.relabel right.relabel
  | var id name => var (id.relabel r) (name.relabel r)
  | assign id name value => assign (id.relabel r) (name.relabel r) value.relabel
  | call callee paren arguments =>
    call callee.relabel (paren.relabel r) (relabelList arguments)
  | get object name => get object.relabel (name.relabel r)
  | set object name value => set object.relabel (name.relabel r) value.relabel
  | this id keyword => this (id.relabel r) (keyword.relabel r)
  | super id keyword method => super (id.relabel r) (keyword.relabel r) (method.relabel r)

/-- Several expressions with other lines and identities. -/
def relabelList : List Expr → List Expr
  | [] => []
  | e :: rest => e.relabel :: relabelList rest

end

/-- Of a list of expressions each is relabelled. -/
@[simp] theorem relabelList_eq_map (es : List Expr) : relabelList r es = es.map (relabel r) := by
  induction es with
  | nil => rfl
  | cons e es ih => simp [relabelList, ih]

mutual

/-- Relabelling twice is relabelling once. -/
@[simp] theorem relabel_relabel (r r' : Relabeling) (e : Expr) :
    (e.relabel r').relabel r = e.relabel (r.comp r') := by
  match e with
  | literal _ | var .. | this .. | super .. => rfl
  | grouping inner => simp [relabel, inner.relabel_relabel]
  | unary _ operand => simp [relabel, operand.relabel_relabel]
  | binary _ left right | logical _ left right =>
    simp [relabel, left.relabel_relabel, right.relabel_relabel]
  | assign _ _ value => simp [relabel, value.relabel_relabel]
  | call callee _ arguments =>
    -- the list of arguments has a lemma of its own, by mutual recursion
    rw [relabel, relabel, callee.relabel_relabel, relabelList_relabelList _ _ arguments]
    rfl
  | get object _ => simp [relabel, object.relabel_relabel]
  | set object _ value => simp [relabel, object.relabel_relabel, value.relabel_relabel]

/-- Relabelling expressions twice is relabelling them once. -/
theorem relabelList_relabelList (r r' : Relabeling) (es : List Expr) :
    relabelList r (relabelList r' es) = relabelList (r.comp r') es := by
  match es with
  | [] => rfl
  | e :: rest => rw [relabelList, relabelList, relabelList, e.relabel_relabel,
      relabelList_relabelList _ _ rest]

end

mutual

/-- An expression stays as it is if its lines and identities do. -/
theorem relabel_eq_self {r : Relabeling} (hr : ∀ l, r.line l = l) (e : Expr)
    (he : ∀ x ∈ e.references, x.id.relabel r = x.id) : e.relabel r = e := by
  match e with
  | literal _ => rfl
  | grouping inner => rw [relabel, inner.relabel_eq_self hr he]
  | unary op operand => rw [relabel, op.relabel_eq_self hr, operand.relabel_eq_self hr he]
  | binary op left right | logical op left right =>
    obtain ⟨hleft, hright⟩ := List.forall_mem_append.mp he
    rw [relabel, op.relabel_eq_self hr, left.relabel_eq_self hr hleft,
      right.relabel_eq_self hr hright]
  | var id name =>
    -- a node that bears a number is a reference itself
    have hid : id.relabel r = id := he _ List.mem_cons_self
    rw [relabel, hid, name.relabel_eq_self hr]
  | assign id name value =>
    obtain ⟨hid, hvalue⟩ := List.forall_mem_cons.mp he
    rw [relabel, hid, name.relabel_eq_self hr,
      value.relabel_eq_self hr hvalue]
  | call callee paren arguments =>
    obtain ⟨hcallee, harguments⟩ := List.forall_mem_append.mp he
    rw [relabel, callee.relabel_eq_self hr hcallee, paren.relabel_eq_self hr,
      relabelList_eq_self hr arguments harguments]
  | get object name => rw [relabel, object.relabel_eq_self hr he, name.relabel_eq_self hr]
  | set object name value =>
    obtain ⟨hobject, hvalue⟩ := List.forall_mem_append.mp he
    rw [relabel, object.relabel_eq_self hr hobject, name.relabel_eq_self hr,
      value.relabel_eq_self hr hvalue]
  | this id keyword =>
    have hid : id.relabel r = id := he _ List.mem_cons_self
    rw [relabel, hid, keyword.relabel_eq_self hr]
  | super id keyword method =>
    have hid : id.relabel r = id := he _ List.mem_cons_self
    rw [relabel, hid, keyword.relabel_eq_self hr,
      method.relabel_eq_self hr]

/-- Expressions stay as they are if their lines and identities do. -/
theorem relabelList_eq_self {r : Relabeling} (hr : ∀ l, r.line l = l) (es : List Expr)
    (hes : ∀ x ∈ referencesList es, x.id.relabel r = x.id) : relabelList r es = es := by
  match es with
  | [] => rfl
  | e :: rest =>
    obtain ⟨he, hrest⟩ := List.forall_mem_append.mp hes
    rw [relabelList, e.relabel_eq_self hr he, relabelList_eq_self hr rest hrest]

end

/-- An expression that may be missing stays as it is if its lines and identities do. -/
theorem relabelOption_eq_self {r : Relabeling} (hr : ∀ l, r.line l = l) (o : Option Expr)
    (ho : ∀ x ∈ referencesOption o, x.id.relabel r = x.id) : o.map (relabel r) = o := by
  cases o with
  | none => rfl
  | some e => rw [Option.map_some, e.relabel_eq_self hr ho]

end Expr

namespace Stmt

variable {R : Type} [Relabels R] (r : R)

mutual

/-- A statement with other lines and identities. -/
def relabel : Stmt → Stmt
  | expression value => expression (value.relabel r)
  | print value => print (value.relabel r)
  | varDecl name initializer => varDecl (name.relabel r) (initializer.map (Expr.relabel r))
  | block body => block (relabelList body)
  | cond condition thenBranch none => cond (condition.relabel r) thenBranch.relabel none
  | cond condition thenBranch (some elseBranch) =>
    cond (condition.relabel r) thenBranch.relabel (some elseBranch.relabel)
  | loop condition body => loop (condition.relabel r) body.relabel
  | funDecl declaration => funDecl (relabelFunction declaration)
  | ret keyword value => ret (keyword.relabel r) (value.map (Expr.relabel r))
  | classDecl ⟨name, superclass, methods⟩ =>
    classDecl ⟨name.relabel r, superclass.map (Expr.relabel r), relabelFunctions methods⟩

/-- Several statements with other lines and identities. -/
def relabelList : List Stmt → List Stmt
  | [] => []
  | s :: rest => s.relabel :: relabelList rest

/-- A function with other lines and identities. -/
def relabelFunction : FunctionDecl → FunctionDecl
  | ⟨name, params, body⟩ => ⟨name.relabel r, params.map (Token.relabel r), relabelList body⟩

/-- Several functions with other lines and identities. -/
def relabelFunctions : List FunctionDecl → List FunctionDecl
  | [] => []
  | d :: rest => relabelFunction d :: relabelFunctions rest

end

/-- Of a list of statements each is relabelled. -/
@[simp] theorem relabelList_eq_map (body : List Stmt) :
    relabelList r body = body.map (relabel r) := by
  induction body with
  | nil => rfl
  | cons s body ih => simp [relabelList, ih]

/-- Of a list of functions each is relabelled. -/
@[simp] theorem relabelFunctions_eq_map (ds : List FunctionDecl) :
    relabelFunctions r ds = ds.map (relabelFunction r) := by
  induction ds with
  | nil => rfl
  | cons d ds ih => simp [relabelFunctions, ih]

/-- The loop that a `for` statement stands for is that of its relabelled parts. -/
@[simp] theorem relabel_forLoop (initializer : Option Stmt) (test increment : Option Expr)
    (body : Stmt) : (forLoop initializer test increment body).relabel r =
      forLoop (initializer.map (relabel r)) (test.map (Expr.relabel r))
        (increment.map (Expr.relabel r)) (body.relabel r) := by
  cases initializer <;> cases test <;> cases increment <;>
    simp [forLoop, relabel, Expr.relabel]

mutual

/-- Relabelling twice is relabelling once. -/
@[simp] theorem relabel_relabel (r r' : Relabeling) (s : Stmt) :
    (s.relabel r').relabel r = s.relabel (r.comp r') := by
  match s with
  | expression _ | print _ | varDecl .. | ret .. => simp [relabel, Function.comp_def]
  | block body => rw [relabel, relabel, relabelList_relabelList _ _ body, relabel]
  | cond _ thenBranch none => simp [relabel, thenBranch.relabel_relabel]
  | cond _ thenBranch (some elseBranch) =>
    simp [relabel, thenBranch.relabel_relabel, elseBranch.relabel_relabel]
  | loop _ body => simp [relabel, body.relabel_relabel]
  | funDecl declaration =>
    rw [relabel, relabel, relabelFunction_relabelFunction _ _ declaration, relabel]
  | classDecl ⟨_, _, methods⟩ =>
    rw [relabel, relabel, relabelFunctions_relabelFunctions _ _ methods, relabel]
    simp [Function.comp_def]

/-- Relabelling statements twice is relabelling them once. -/
theorem relabelList_relabelList (r r' : Relabeling) (body : List Stmt) :
    relabelList r (relabelList r' body) = relabelList (r.comp r') body := by
  match body with
  | [] => rfl
  | s :: rest => rw [relabelList, relabelList, relabelList, s.relabel_relabel,
      relabelList_relabelList _ _ rest]

/-- Relabelling a function twice is relabelling it once. -/
@[simp] theorem relabelFunction_relabelFunction (r r' : Relabeling) (d : FunctionDecl) :
    relabelFunction r (relabelFunction r' d) = relabelFunction (r.comp r') d := by
  match d with
  | ⟨_, _, body⟩ =>
    rw [relabelFunction, relabelFunction, relabelList_relabelList _ _ body, relabelFunction]
    simp [Function.comp_def]

/-- Relabelling functions twice is relabelling them once. -/
theorem relabelFunctions_relabelFunctions (r r' : Relabeling) (ds : List FunctionDecl) :
    relabelFunctions r (relabelFunctions r' ds) = relabelFunctions (r.comp r') ds := by
  match ds with
  | [] => rfl
  | d :: rest => rw [relabelFunctions, relabelFunctions, relabelFunctions,
      relabelFunction_relabelFunction _ _ d, relabelFunctions_relabelFunctions _ _ rest]

end

/-- Tokens stay as they are if their lines do. -/
private theorem relabelTokens_eq_self {r : Relabeling} (hr : ∀ l, r.line l = l)
    (ts : List Token) : ts.map (Token.relabel r) = ts :=
  List.map_id'' (fun t => t.relabel_eq_self hr) ts

mutual

/-- A statement stays as it is if its lines and identities do. -/
theorem relabel_eq_self {r : Relabeling} (hr : ∀ l, r.line l = l) (s : Stmt)
    (hs : ∀ x ∈ s.references, x.id.relabel r = x.id) : s.relabel r = s := by
  match s with
  | expression value | print value => rw [relabel, value.relabel_eq_self hr hs]
  | varDecl name initializer =>
    rw [relabel, name.relabel_eq_self hr, Expr.relabelOption_eq_self hr initializer hs]
  | block body => rw [relabel, relabelList_eq_self hr body hs]
  | cond condition thenBranch none =>
    obtain ⟨hcondition, hthen⟩ := List.forall_mem_append.mp hs
    rw [relabel, condition.relabel_eq_self hr hcondition, thenBranch.relabel_eq_self hr hthen]
  | cond condition thenBranch (some elseBranch) =>
    obtain ⟨hs, helse⟩ := List.forall_mem_append.mp hs
    obtain ⟨hcondition, hthen⟩ := List.forall_mem_append.mp hs
    rw [relabel, condition.relabel_eq_self hr hcondition, thenBranch.relabel_eq_self hr hthen,
      elseBranch.relabel_eq_self hr helse]
  | loop condition body =>
    obtain ⟨hcondition, hbody⟩ := List.forall_mem_append.mp hs
    rw [relabel, condition.relabel_eq_self hr hcondition, body.relabel_eq_self hr hbody]
  | funDecl declaration => rw [relabel, relabelFunction_eq_self hr declaration hs]
  | ret keyword value =>
    rw [relabel, keyword.relabel_eq_self hr, Expr.relabelOption_eq_self hr value hs]
  | classDecl ⟨name, superclass, methods⟩ =>
    obtain ⟨hsuper, hmethods⟩ := List.forall_mem_append.mp hs
    rw [relabel, name.relabel_eq_self hr, Expr.relabelOption_eq_self hr superclass hsuper,
      relabelFunctions_eq_self hr methods hmethods]

/-- Statements stay as they are if their lines and identities do. -/
theorem relabelList_eq_self {r : Relabeling} (hr : ∀ l, r.line l = l) (body : List Stmt)
    (hbody : ∀ x ∈ referencesList body, x.id.relabel r = x.id) : relabelList r body = body := by
  match body with
  | [] => rfl
  | s :: rest =>
    obtain ⟨hs, hrest⟩ := List.forall_mem_append.mp hbody
    rw [relabelList, s.relabel_eq_self hr hs, relabelList_eq_self hr rest hrest]

/-- A function stays as it is if its lines and identities do. -/
theorem relabelFunction_eq_self {r : Relabeling} (hr : ∀ l, r.line l = l) (d : FunctionDecl)
    (hd : ∀ x ∈ functionReferences d, x.id.relabel r = x.id) : relabelFunction r d = d := by
  match d with
  | ⟨name, params, body⟩ =>
    rw [relabelFunction, name.relabel_eq_self hr, relabelTokens_eq_self hr,
      relabelList_eq_self hr body hd]

/-- Functions stay as they are if their lines and identities do. -/
theorem relabelFunctions_eq_self {r : Relabeling} (hr : ∀ l, r.line l = l)
    (ds : List FunctionDecl) (hds : ∀ x ∈ methodReferences ds, x.id.relabel r = x.id) :
    relabelFunctions r ds = ds := by
  match ds with
  | [] => rfl
  | d :: rest =>
    obtain ⟨hd, hrest⟩ := List.forall_mem_append.mp hds
    rw [relabelFunctions, relabelFunction_eq_self hr d hd, relabelFunctions_eq_self hr rest hrest]

end

/-- A statement of which nothing is changed stays as it is. -/
@[simp] theorem relabel_refl (s : Stmt) : s.relabel .refl = s := by
  exact s.relabel_eq_self (fun _ => rfl) fun _ _ => rfl

/-- A function of which nothing is changed stays as it is. -/
@[simp] theorem relabelFunction_refl (d : FunctionDecl) : relabelFunction .refl d = d := by
  exact relabelFunction_eq_self (fun _ => rfl) d fun _ _ => rfl

/-- The name of a function is relabelled. -/
@[simp] theorem relabelFunction_name (d : FunctionDecl) :
    (relabelFunction r d).name = d.name.relabel r := by
  cases d
  rfl

/-- The parameters of a function are relabelled. -/
@[simp] theorem relabelFunction_params (d : FunctionDecl) :
    (relabelFunction r d).params = d.params.map (Token.relabel r) := by
  cases d
  rfl

/-- The body of a function is relabelled. -/
@[simp] theorem relabelFunction_body (d : FunctionDecl) :
    (relabelFunction r d).body = d.body.map (relabel r) := by
  cases d
  exact relabelList_eq_map r _

end Stmt

namespace Phrase

/-- A phrase with other lines and identities. -/
def relabel (r : Relabeling) : Phrase → Phrase
  | expression e => expression (e.relabel r)
  | level l e => level l (e.relabel r)
  | operands l left e => operands l (left.relabel r) (e.relabel r)
  | unary e => unary (e.relabel r)
  | call e => call (e.relabel r)
  | postfixes left e => postfixes (left.relabel r) (e.relabel r)
  | primary e => primary (e.relabel r)
  | arguments es => arguments (es.map (Expr.relabel r))

/-- A relabelled operand is an operand of the same level. -/
theorem relabel_operand (r : Relabeling) (l : Level) (e : Expr) :
    (l.operand e).relabel r = l.operand (e.relabel r) := by
  cases l <;> rfl

/-- A relabelled node is one of the same level, of relabelled parts. -/
theorem relabel_node (r : Relabeling) (l : Level) (op : Token) (left right : Expr) :
    (l.node op left right).relabel r =
      l.node (op.relabel r) (left.relabel r) (right.relabel r) := by
  cases l <;> simp [Level.node, Expr.relabel]

/-- Derivations of tokens on other lines, with numbers that go up by one where the others do. -/
theorem Derives.relabel {p : Phrase} {ts : List Token} {n n' k : Nat} {r : Relabeling}
    (hr : ∀ i, k ≤ i → r.id (i + 1) = r.id i + 1) (h : p.Derives n ts n') (hk : k ≤ n) :
    k ≤ n' ∧ (p.relabel r).Derives (r.id n) (ts.map (Token.relabel r)) (r.id n') := by
  induction h with
  | @assign value name equal ts n m hname hequal _ ih =>
    -- the name takes the number that follows those of the value
    obtain ⟨hm, h⟩ := ih (by omega)
    rw [hr n hk] at h
    refine ⟨by omega, ?_⟩
    rw [hr m hm]
    exact .assign hname hequal h
  | set _ hdot hname hequal _ ihobject ih =>
    obtain ⟨hm, hobject⟩ := ihobject hk
    obtain ⟨hn, h⟩ := ih hm
    exact ⟨hn, by simpa using .set hobject hdot hname hequal h⟩
  | operation _ ih => exact ⟨(ih hk).1, .operation (ih hk).2⟩
  | level _ _ ihleft ihrest =>
    obtain ⟨hm, hleft⟩ := ihleft hk
    obtain ⟨hn, hrest⟩ := ihrest hm
    rw [relabel_operand] at hleft
    exact ⟨hn, by simpa using .level hleft hrest⟩
  | lastOperand => exact ⟨hk, .lastOperand⟩
  | nextOperand hop _ _ ihright ihrest =>
    obtain ⟨hm, hright⟩ := ihright hk
    obtain ⟨hn, hrest⟩ := ihrest hm
    rw [relabel_operand] at hright
    simp only [Phrase.relabel, relabel_node] at hrest
    exact ⟨hn, by simpa using .nextOperand hop hright hrest⟩
  | unary hop _ ih => exact ⟨(ih hk).1, .unary hop (ih hk).2⟩
  | operand _ ih => exact ⟨(ih hk).1, .operand (ih hk).2⟩
  | call _ _ ihleft ihrest =>
    obtain ⟨hm, hleft⟩ := ihleft hk
    obtain ⟨hn, hrest⟩ := ihrest hm
    exact ⟨hn, by simpa using .call hleft hrest⟩
  | lastPostfix => exact ⟨hk, .lastPostfix⟩
  | emptyCall hlparen hrparen _ ih =>
    obtain ⟨hn, h⟩ := ih hk
    exact ⟨hn, .emptyCall hlparen hrparen h⟩
  | callWith hlparen _ hcount hrparen _ ihes ih =>
    obtain ⟨hm, hes⟩ := ihes hk
    obtain ⟨hn, h⟩ := ih hm
    simp only [Phrase.relabel, Expr.relabel, Expr.relabelList_eq_map] at h
    exact ⟨hn, by simpa using .callWith hlparen hes (by simpa using hcount) hrparen h⟩
  | property hdot hname _ ih =>
    obtain ⟨hn, h⟩ := ih hk
    exact ⟨hn, .property hdot hname h⟩
  | lastArgument _ ih => exact ⟨(ih hk).1, .lastArgument (ih hk).2⟩
  | nextArgument _ hcomma _ ih ihrest =>
    obtain ⟨hm, h⟩ := ih hk
    obtain ⟨hn, hrest⟩ := ihrest hm
    exact ⟨hn, by simpa using .nextArgument h hcomma hrest⟩
  | literal h => exact ⟨hk, .literal h⟩
  | @var name n hname =>
    refine ⟨by omega, ?_⟩
    rw [hr n hk]
    exact .var hname
  | @this keyword n h =>
    refine ⟨by omega, ?_⟩
    rw [hr n hk]
    exact .this h
  | @super keyword dot method n h hdot hmethod =>
    refine ⟨by omega, ?_⟩
    rw [hr n hk]
    exact .super h hdot hmethod
  | grouping hlparen _ hrparen ih =>
    obtain ⟨hn, h⟩ := ih hk
    exact ⟨hn, by simpa using .grouping hlparen h hrparen⟩

/-- The numbers of a derivation may start anywhere. -/
theorem Derives.renumber {p : Phrase} {ts : List Token} {n n' : Nat} (h : p.Derives n ts n')
    (k : Nat) : (p.relabel (.ofId fun i => i - n + k)).Derives k ts (n' - n + k) := by
  have hr : ∀ i, n ≤ i → i + 1 - n + k = i - n + k + 1 := by omega
  have hlines : ts.map (Token.relabel (.ofId fun i => i - n + k)) = ts := List.map_id ts
  have hrelabel := (h.relabel (r := .ofId fun i => i - n + k) hr (Nat.le_refl n)).2
  rw [hlines] at hrelabel
  simpa [Relabeling.ofId] using hrelabel

end Phrase

section Parts

variable {ts : List Token} {n n' k : Nat} {r : Relabeling}

/-- Tokens on other lines derive an expression that may be missing just as well. -/
theorem OptionalExpression.relabel {o : Option Expr}
    (hr : ∀ i, k ≤ i → r.id (i + 1) = r.id i + 1) (h : OptionalExpression o n ts n') (hk : k ≤ n) :
    k ≤ n' ∧ OptionalExpression (o.map (Expr.relabel r)) (r.id n) (ts.map (Token.relabel r))
      (r.id n') := by
  cases h with
  | none => exact ⟨hk, .none⟩
  | some h =>
    obtain ⟨hn, h⟩ := h.relabel hr hk
    exact ⟨hn, .some h⟩

/-- Tokens on other lines derive a variable declaration just as well. -/
theorem VariableDeclaration.relabel {s : Stmt} (hr : ∀ i, k ≤ i → r.id (i + 1) = r.id i + 1)
    (h : VariableDeclaration s n ts n') (hk : k ≤ n) :
    k ≤ n' ∧ VariableDeclaration (s.relabel r) (r.id n) (ts.map (Token.relabel r)) (r.id n') := by
  cases h with
  | bare hvar hname hsemicolon => exact ⟨hk, .bare hvar hname hsemicolon⟩
  | initialized hvar hname hequal h hsemicolon =>
    obtain ⟨hn, h⟩ := h.relabel hr hk
    exact ⟨hn, by simpa using .initialized hvar hname hequal h hsemicolon⟩

/-- Tokens on other lines derive an expression statement just as well. -/
theorem ExpressionStatement.relabel {s : Stmt} (hr : ∀ i, k ≤ i → r.id (i + 1) = r.id i + 1)
    (h : ExpressionStatement s n ts n') (hk : k ≤ n) :
    k ≤ n' ∧ ExpressionStatement (s.relabel r) (r.id n) (ts.map (Token.relabel r)) (r.id n') := by
  cases h with
  | expression h hsemicolon =>
    obtain ⟨hn, h⟩ := h.relabel hr hk
    exact ⟨hn, by simpa using .expression h hsemicolon⟩

/-- Tokens on other lines derive the initializer of a `for` statement just as well. -/
theorem Initializer.relabel {o : Option Stmt} (hr : ∀ i, k ≤ i → r.id (i + 1) = r.id i + 1)
    (h : Initializer o n ts n') (hk : k ≤ n) :
    k ≤ n' ∧ Initializer (o.map (Stmt.relabel r)) (r.id n) (ts.map (Token.relabel r))
      (r.id n') := by
  cases h with
  | none hsemicolon => exact ⟨hk, .none hsemicolon⟩
  | varDecl h => exact ⟨(h.relabel hr hk).1, .varDecl (h.relabel hr hk).2⟩
  | expression h => exact ⟨(h.relabel hr hk).1, .expression (h.relabel hr hk).2⟩

/-- Tokens on other lines are parameters just as well. -/
theorem Parameters.relabel {params : List Token} (r : Relabeling) (h : Parameters params ts) :
    Parameters (params.map (Token.relabel r)) (ts.map (Token.relabel r)) := by
  induction h with
  | none => exact .none
  | last hname => exact .last hname
  | next hname hcomma hne _ ih => exact .next hname hcomma (by simpa using hne) ih

end Parts

namespace Clause

/-- A clause with other lines and identities. -/
def relabel (r : Relabeling) : Clause → Clause
  | declarations body => declarations (body.map (Stmt.relabel r))
  | declaration s => declaration (s.relabel r)
  | statement ending s => statement ending (s.relabel r)
  | function d => function (Stmt.relabelFunction r d)
  | methods ds => methods (ds.map (Stmt.relabelFunction r))

/-- Derivations of tokens on other lines, with numbers that go up by one where the others do. -/
theorem Derives.relabel {nearest : Bool} {c : Clause} {ts : List Token} {n n' k : Nat}
    {r : Relabeling} (hr : ∀ i, k ≤ i → r.id (i + 1) = r.id i + 1) (h : c.Derives nearest n ts n')
    (hk : k ≤ n) :
    k ≤ n' ∧ (c.relabel r).Derives nearest (r.id n) (ts.map (Token.relabel r)) (r.id n') := by
  induction h with
  | noDeclaration => exact ⟨hk, .noDeclaration⟩
  | nextDeclaration _ _ ih ihrest =>
    obtain ⟨hm, h⟩ := ih hk
    obtain ⟨hn, hrest⟩ := ihrest hm
    exact ⟨hn, by simpa using .nextDeclaration h hrest⟩
  | @classDecl ds _ _ _ _ _ _ _ hkeyword hname hlbrace _ hrbrace ih =>
    obtain ⟨hn, h⟩ := ih hk
    refine ⟨hn, ?_⟩
    simp only [Clause.relabel, Stmt.relabel, Stmt.relabelFunctions_eq_map]
    simpa using .classDecl hkeyword hname hlbrace h hrbrace
  | @subclassDecl ds _ _ _ _ _ _ _ n n' hkeyword hname hless hsuper hlbrace _ hrbrace ih =>
    obtain ⟨hn, h⟩ := ih (by omega)
    refine ⟨hn, ?_⟩
    -- the superclass takes a number, in front of those of the methods
    rw [hr n hk] at h
    simp only [Clause.relabel, Stmt.relabel, Stmt.relabelFunctions_eq_map]
    simpa using .subclassDecl hkeyword hname hless hsuper hlbrace h hrbrace
  | funDecl hkeyword _ ih => exact ⟨(ih hk).1, .funDecl hkeyword (ih hk).2⟩
  | varDecl h => exact ⟨(h.relabel hr hk).1, .varDecl (h.relabel hr hk).2⟩
  | statement _ ih => exact ⟨(ih hk).1, .statement (ih hk).2⟩
  | @function body _ _ _ _ _ params _ _ _ _ hname hlparen hparams hcount hrparen hlbrace _ hrbrace
      ih =>
    obtain ⟨hn, h⟩ := ih hk
    refine ⟨hn, ?_⟩
    simp only [Clause.relabel, Stmt.relabelFunction, Stmt.relabelList_eq_map]
    simpa using Clause.Derives.function (Token.relabel_kind_eq r hname)
      (Token.relabel_kind_eq r hlparen) (hparams.relabel r) (by simpa using hcount)
      (Token.relabel_kind_eq r hrparen) (Token.relabel_kind_eq r hlbrace) h
      (Token.relabel_kind_eq r hrbrace)
  | noMethod => exact ⟨hk, .noMethod⟩
  | nextMethod _ _ ih ihrest =>
    obtain ⟨hm, h⟩ := ih hk
    obtain ⟨hn, hrest⟩ := ihrest hm
    exact ⟨hn, by simpa using .nextMethod h hrest⟩
  | exprStmt h => exact ⟨(h.relabel hr hk).1, .exprStmt (h.relabel hr hk).2⟩
  | printStmt hkeyword h hsemicolon =>
    obtain ⟨hn, h⟩ := h.relabel hr hk
    exact ⟨hn, by simpa using .printStmt hkeyword h hsemicolon⟩
  | returnStmt hkeyword h hsemicolon =>
    obtain ⟨hn, h⟩ := h.relabel hr hk
    exact ⟨hn, by simpa using .returnStmt hkeyword h hsemicolon⟩
  | block hlbrace _ hrbrace ih =>
    obtain ⟨hn, h⟩ := ih hk
    refine ⟨hn, ?_⟩
    simp only [Clause.relabel, Stmt.relabel, Stmt.relabelList_eq_map]
    simpa using .block hlbrace h hrbrace
  | whileStmt hkeyword hlparen hcondition hrparen _ ih =>
    obtain ⟨hm, hcondition⟩ := hcondition.relabel hr hk
    obtain ⟨hn, h⟩ := ih hm
    exact ⟨hn, by simpa using .whileStmt hkeyword hlparen hcondition hrparen h⟩
  | forStmt hkeyword hlparen hinitializer htest hsemicolon hincrement hrparen _ ih =>
    obtain ⟨hm, hinitializer⟩ := hinitializer.relabel hr hk
    obtain ⟨hm₁, htest⟩ := htest.relabel hr hm
    obtain ⟨hm₂, hincrement⟩ := hincrement.relabel hr hm₁
    obtain ⟨hn, h⟩ := ih hm₂
    refine ⟨hn, ?_⟩
    simp only [Clause.relabel, Stmt.relabel_forLoop]
    simpa using Clause.Derives.forStmt (Token.relabel_kind_eq r hkeyword)
      (Token.relabel_kind_eq r hlparen) hinitializer htest (Token.relabel_kind_eq r hsemicolon)
      hincrement (Token.relabel_kind_eq r hrparen) h
  | ifStmt hkeyword hlparen hcondition hrparen _ ih =>
    obtain ⟨hm, hcondition⟩ := hcondition.relabel hr hk
    obtain ⟨hn, h⟩ := ih hm
    exact ⟨hn, by simpa using .ifStmt hkeyword hlparen hcondition hrparen h⟩
  | ifElseStmt hkeyword hlparen hcondition hrparen _ hnearest helse _ ihthen ih =>
    obtain ⟨hm, hcondition⟩ := hcondition.relabel hr hk
    obtain ⟨hm₁, hthen⟩ := ihthen hm
    obtain ⟨hn, h⟩ := ih hm₁
    refine ⟨hn, ?_⟩
    simp only [Clause.relabel, Stmt.relabel]
    simpa using Clause.Derives.ifElseStmt (Token.relabel_kind_eq r hkeyword)
      (Token.relabel_kind_eq r hlparen) hcondition (Token.relabel_kind_eq r hrparen) hthen
      hnearest (Token.relabel_kind_eq r helse) h

/-- The numbers of a derivation may start anywhere. -/
theorem Derives.renumber {nearest : Bool} {c : Clause} {ts : List Token} {n n' : Nat}
    (h : c.Derives nearest n ts n') (k : Nat) :
    (c.relabel (.ofId fun i => i - n + k)).Derives nearest k ts (n' - n + k) := by
  have hr : ∀ i, n ≤ i → i + 1 - n + k = i - n + k + 1 := by omega
  have hlines : ts.map (Token.relabel (.ofId fun i => i - n + k)) = ts := List.map_id ts
  have hrelabel := (h.relabel (r := .ofId fun i => i - n + k) hr (Nat.le_refl n)).2
  rw [hlines] at hrelabel
  simpa [Relabeling.ofId] using hrelabel

end Clause

end Lox
