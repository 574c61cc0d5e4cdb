import Lox.Proofs.Respelled

/-!
# What the resolver finds for another name

The resolver keeps its own scopes, with the names that they declare. When a local variable has got
another name, the scope in which it is declared has the new name in place of the old one, and all
others are as before. So each reference is found at the distance at which it was found before.

## Key results

- `StaticScopes.Match`: the scopes of the resolver, before and after
- `Stmt.resolveList_respelled`: what the resolver finds in statements
-/

namespace Lox

/-! ## Scopes of the resolver -/

section Resolving

variable {ν : NewName} {places : List Nat} {distance? : NodeId → Option Nat}
  {scopes scopes' : StaticScopes} {around : Surroundings}

namespace StaticScopes

/-- A name that is declared without fault is new in its scope. -/
theorem Agrees.noFault_declare_iff (h : scopes.Agrees around) (name : Token) :
    NoFault (scopes.declare name).2 ↔ ∀ x ∈ around.head?, name.lexeme ∉ x.declared := by
  cases h with
  | nil => simp [StaticScopes.declare, NoFault]
  | @cons scope x scopes around hx h =>
    have hcontains : scope.contains name.lexeme = decide (name.lexeme ∈ x.declared) := by
      rw [NameTable.contains, hx]
      split <;> simp_all
    by_cases hmem : name.lexeme ∈ x.declared
    · simp [StaticScopes.declare, hcontains, hmem]
    · simp [StaticScopes.declare, hcontains, hmem, NoFault]

/-- The scopes of the resolver know what is declared around a place, before and after the variable
    gets its new name. -/
structure Match (ν : NewName) (scopes scopes' : StaticScopes) (around : Surroundings) : Prop where
  left : scopes.Agrees around
  right : scopes'.Agrees (ν.around around)
  fresh : ∀ x ∈ around, ν.name ∉ x.declared

/-- What the resolver asks its scopes when it comes to a reference, before and after. -/
structure Sees (ν : NewName) (scopes scopes' : StaticScopes) (around : Surroundings) : Prop where
  distance? : ∀ name name', ν.Spelled around name name' →
    scopes'.distance? name' = scopes.distance? name
  inInitializerOf : ∀ name name', ν.Spelled around name name' →
    scopes'.inInitializerOf name' = true → scopes.inInitializerOf name = true

namespace Match

/-- The resolver sees the same before and after. -/
theorem sees (h : Match ν scopes scopes' around) : Sees ν scopes scopes' around := by
  refine ⟨fun name name' hname => ?_, fun name name' _ hinit => ?_⟩
  · rw [h.right.shows.distance?, h.left.shows.distance?, hname.distance?_eq h.fresh]
  · rw [h.right.shows.inInitializerOf] at hinit
    cases hinit

/-- An empty scope is opened on both sides. -/
theorem openEmpty (h : Match ν scopes scopes' around) (opener : Opener) :
    Match ν (.empty :: scopes) (.empty :: scopes') (⟨opener, []⟩ :: around) :=
  ⟨h.left.openEmpty opener, h.right.openEmpty opener,
    List.forall_mem_cons.mpr ⟨List.not_mem_nil, h.fresh⟩⟩

/-- A scope with a reserved word is opened on both sides, because no reserved word is respelled. -/
theorem openWord (h : Match ν scopes scopes' around) {opener : Opener}
    (hopener : ν.spelling opener = .same) (k : Keyword) :
    Match ν (scopes.openWith k.word) (scopes'.openWith k.word) (⟨opener, [k.word]⟩ :: around) := by
  refine ⟨h.left.openWith opener k.word, ?_, List.forall_mem_cons.mpr ⟨?_, h.fresh⟩⟩
  · have hright := h.right.openWith opener k.word
    -- the opener's spelling leaves all names, so the reserved one too
    have hword : [k.word].map (ν.spelling opener).spell = [k.word] := by
      rw [hopener]
      rfl
    rw [← hword] at hright
    exact hright
  · rw [List.mem_singleton]
    exact ν.isName k

/-- A declaration without fault is none either when the name is spelled the way of its scope. -/
theorem noFault_declare (h : Match ν scopes scopes' around) {name name' : Token}
    (hname : name'.lexeme = (ν.spellingIn around.scope?).spell name.lexeme)
    (hfault : NoFault (scopes.declare name).2) : NoFault (scopes'.declare name').2 := by
  rw [h.left.noFault_declare_iff] at hfault
  rw [h.right.noFault_declare_iff, hname]
  cases around with
  | nil => simp [NewName.around]
  | cons x around =>
    rintro _ ⟨⟩ hmem
    obtain ⟨other, hother, heq⟩ := List.mem_map.mp hmem
    -- different names of the scope stay different, since the new name is in none
    obtain rfl := (Spelling.inj _).mp heq
    exact hfault x rfl hother

/-- A declaration, while its value is computed and afterwards. -/
theorem declare (h : Match ν scopes scopes' around) {name name' : Token}
    (hne : name.lexeme ≠ ν.name)
    (hname : name'.lexeme = (ν.spellingIn around.scope?).spell name.lexeme)
    (hfault : NoFault (scopes.declare name).2) :
    (scopes'.declare name').2 = (scopes.declare name).2 ∧
      Sees ν (scopes.declare name).1 (scopes'.declare name').1 (around.declare name.lexeme) ∧
      Match ν ((scopes.declare name).1.define name.lexeme)
        ((scopes'.declare name').1.define name'.lexeme) (around.declare name.lexeme) := by
  have hfault' := h.noFault_declare hname hfault
  -- the declared name is not the new one, so the new one is still declared nowhere
  have hfresh : ∀ x ∈ around.declare name.lexeme, ν.name ∉ x.declared := by
    have hfresh := h.fresh
    cases around with
    | nil => exact hfresh
    | cons x around =>
      obtain ⟨hx, haround⟩ := List.forall_mem_cons.mp hfresh
      refine List.forall_mem_cons.mpr ⟨?_, haround⟩
      simpa [hx] using hne.symm
  obtain ⟨hshows, hagrees⟩ := h.left.declare hfault
  obtain ⟨hshows', hagrees'⟩ := h.right.declare hfault'
  rw [hname, ← NewName.around_declare] at hshows' hagrees'
  refine ⟨?_, ⟨fun other other' hother => ?_, fun other other' hother hinit => ?_⟩,
    hagrees, hname ▸ hagrees', hfresh⟩
  · rw [Stmt.declare_found_eq_nil hfault, Stmt.declare_found_eq_nil hfault']
  · rw [hshows'.distance?, hshows.distance?, hother.distance?_eq hfresh]
  · rw [hshows'.inInitializerOf] at hinit
    rw [hshows.inInitializerOf]
    cases around with
    | nil => cases hinit
    | cons x around =>
      -- the scope spells its names one way, so the initializer sees its own name under the new one
      have heq : (ν.spelling x.opener).spell name.lexeme = other' := Option.some.inj hinit
      have hor := hother.or
      have hother := hother.ne
      rw [NewName.spell_spelling _ hne] at heq
      show some name.lexeme = some other
      grind

/-- Parameters that could be introduced before can be introduced under their new names. -/
private theorem noFault_introduce {o : Opener} {declared : List String} {params : List Token}
    (h : Match ν scopes scopes' (⟨o, declared⟩ :: around))
    (hparams : ∀ t ∈ params, ν.Marks places (.var (some o) t))
    (hfault : NoFault (scopes.introduce params).2) :
    NoFault (scopes'.introduce (params.map (ν.respell places))).2 := by
  induction params generalizing scopes scopes' declared with
  | nil => simp [StaticScopes.introduce, NoFault]
  | cons param params ih =>
    obtain ⟨hparam, hparams⟩ := List.forall_mem_cons.mp hparams
    rw [introduce_cons] at hfault
    rw [List.map_cons, introduce_cons]
    obtain ⟨hfault, hrest⟩ := NoFault.append_iff.mp hfault
    -- each parameter is declared behind those before it, in matching scopes
    obtain ⟨hfound, -, hafter⟩ := h.declare hparam.1 hparam.2 hfault
    rw [← hfound] at hfault
    exact NoFault.append_iff.mpr ⟨hfault, ih hafter hparams hrest⟩

/-- The parameters of a function. -/
theorem introduce (h : Match ν scopes scopes' around) (o : Opener) {params : List Token}
    (hparams : ∀ t ∈ params, ν.Marks places (.var (some o) t))
    (hfault : NoFault (StaticScopes.introduce (.empty :: scopes) params).2) :
    (StaticScopes.introduce (.empty :: scopes') (params.map (ν.respell places))).2 =
        (StaticScopes.introduce (.empty :: scopes) params).2 ∧
      Match ν (StaticScopes.introduce (.empty :: scopes) params).1
        (StaticScopes.introduce (.empty :: scopes') (params.map (ν.respell places))).1
        (⟨o, params.map (·.lexeme)⟩ :: around) := by
  have hfault' := noFault_introduce (h.openEmpty o) hparams hfault
  have hleft := (h.left.openEmpty o).introduce hfault
  have hright := (h.right.openEmpty o).introduce hfault'
  -- each parameter is spelled as its scope spells names
  have hnames : (params.map (ν.respell places)).map (·.lexeme) =
      (params.map (·.lexeme)).map (ν.spelling o).spell := by
    rw [List.map_map, List.map_map]
    exact List.map_congr_left fun t ht => (hparams t ht).2
  rw [List.append_nil] at hleft hright
  rw [hnames] at hright
  refine ⟨?_, hleft, hright, List.forall_mem_cons.mpr ⟨fun hmem => ?_, h.fresh⟩⟩
  · rw [Stmt.introduce_found_eq_nil hfault, Stmt.introduce_found_eq_nil hfault']
  · obtain ⟨t, ht, heq⟩ := List.mem_map.mp hmem
    exact (hparams t ht).1 heq

/-- A function or a class. -/
theorem definition (h : Match ν scopes scopes' around) {name : Token}
    (hname : ν.Marks places (.definition around.scope? name))
    (hfault : NoFault (scopes.introduce [name]).2) :
    (scopes'.introduce [ν.respell places name]).2 = (scopes.introduce [name]).2 ∧
      Match ν (scopes.introduce [name]).1 (scopes'.introduce [ν.respell places name]).1
        (around.declare name.lexeme) := by
  obtain ⟨hne, hplace, hspell⟩ := hname
  rw [NewName.respell_of_not_mem hplace]
  obtain ⟨hfound, -, hafter⟩ := h.declare hne hspell.symm (NoFault.append_iff.mp hfault).1
  exact ⟨congrArg (· ++ []) hfound, hafter⟩

end Match

end StaticScopes

open StaticScopes

/-- A reference is found at the same distance. -/
private theorem refer_respelled {initializing : Option String} (h : Sees ν scopes scopes' around)
    {kind : ReferenceKind} {id : NodeId} {name : Token}
    (hfits : ν.Fits places distance? ⟨⟨kind, id, name⟩, around, initializing⟩) :
    scopes'.refer id (ν.respell places name) = scopes.refer id name := by
  have hdistance := h.distance? _ _ hfits.spelled
  unfold StaticScopes.refer
  rw [hdistance]

namespace Expr

variable {cls : ClassContext} {initializing : Option String}

mutual

/-- In an expression the resolver finds the same. -/
theorem resolve_respelled (h : Sees ν scopes scopes' around) (e : Expr)
    (hfits : ∀ r ∈ e.references, ν.Fits places distance? ⟨r, around, initializing⟩)
    (hfault : NoFault (e.resolve cls scopes)) :
    (e.relabel (ν.respell places)).resolve cls scopes' = e.resolve cls scopes := by
  match e with
  | literal _ => rfl
  | grouping inner => exact inner.resolve_respelled h hfits hfault
  | unary _ operand => exact operand.resolve_respelled h hfits hfault
  | binary _ left right | logical _ left right =>
    obtain ⟨hfits, hfits'⟩ := List.forall_mem_append.mp hfits
    obtain ⟨hleft, hright⟩ := NoFault.append_iff.mp hfault
    rw [relabel, resolve, resolve, left.resolve_respelled h hfits hleft,
      right.resolve_respelled h hfits' hright]
  | var id name =>
    have hname := hfits _ List.mem_cons_self
    rw [resolve] at hfault
    have hinit : ¬ scopes.inInitializerOf name.lexeme = true := by
      intro hinit
      simp [hinit] at hfault
    -- a name in its own initializer would be one there before, too
    have hinit' : ¬ scopes'.inInitializerOf (ν.respell places name).lexeme = true :=
      mt (h.inInitializerOf _ _ hname.spelled) hinit
    rw [relabel, NodeId.relabel_apply, Token.relabel_apply, resolve, resolve, if_neg hinit,
      if_neg hinit', refer_respelled h hname]
  | assign id name value =>
    obtain ⟨hname, hfits⟩ := List.forall_mem_cons.mp hfits
    obtain ⟨hvalue, -⟩ := NoFault.append_iff.mp hfault
    rw [relabel, NodeId.relabel_apply, Token.relabel_apply, resolve, resolve,
      value.resolve_respelled h hfits hvalue, refer_respelled h hname]
  | call callee _ arguments =>
    obtain ⟨hfits, hfits'⟩ := List.forall_mem_append.mp hfits
    obtain ⟨hcallee, harguments⟩ := NoFault.append_iff.mp hfault
    rw [relabel, resolve, resolve, callee.resolve_respelled h hfits hcallee,
      resolveList_respelled h arguments hfits' harguments]
  | get object _ => exact object.resolve_respelled h hfits hfault
  | set object _ value =>
    obtain ⟨hfits, hfits'⟩ := List.forall_mem_append.mp hfits
    obtain ⟨hvalue, hobject⟩ := NoFault.append_iff.mp hfault
    rw [relabel, resolve, resolve, value.resolve_respelled h hfits' hvalue,
      object.resolve_respelled h hfits hobject]
  | this id keyword =>
    have hrefer := refer_respelled h (hfits _ List.mem_cons_self)
    cases cls with
    | none => simp [resolve] at hfault
    | base => exact hrefer
    | subclass => exact hrefer
  | super id keyword method =>
    have hrefer := refer_respelled h (hfits _ List.mem_cons_self)
    cases cls with
    | none => simp [resolve] at hfault
    | base => simp [resolve] at hfault
    | subclass => exact hrefer

/-- In expressions the resolver finds the same. -/
theorem resolveList_respelled (h : Sees ν scopes scopes' around) (es : List Expr)
    (hfits : ∀ r ∈ referencesList es, ν.Fits places distance? ⟨r, around, initializing⟩)
    (hfault : NoFault (resolveList cls scopes es)) :
    resolveList cls scopes' (relabelList (ν.respell places) es) = resolveList cls scopes es := by
  match es with
  | [] => rfl
  | e :: rest =>
    obtain ⟨hfits, hfits'⟩ := List.forall_mem_append.mp hfits
    obtain ⟨he, hrest⟩ := NoFault.append_iff.mp hfault
    rw [relabelList, resolveList, resolveList, e.resolve_respelled h hfits he,
      resolveList_respelled h rest hfits' hrest]

end

/-- In an expression that may be missing the resolver finds the same. -/
theorem resolveOption_respelled (h : Sees ν scopes scopes' around) (o : Option Expr)
    (hfits : ∀ u ∈ usesOption around initializing o, ν.Fits places distance? u)
    (hfault : NoFault (resolveOption cls scopes o)) :
    resolveOption cls scopes' (o.map (relabel (ν.respell places))) =
      resolveOption cls scopes o := by
  cases o with
  | none => rfl
  | some e => exact e.resolve_respelled h (fun r hr => hfits _ (List.mem_map_of_mem hr)) hfault

end Expr

namespace Stmt

/-- A class still has another name than its superclass. -/
private theorem resolveSuperclass_respelled {initializing : Option String}
    (h : Sees ν scopes scopes' around) {id : NodeId} {name superName : Token}
    (hne : name.lexeme ≠ ν.name)
    (hfits : ν.Fits places distance? ⟨⟨.var, id, superName⟩, around, initializing⟩)
    (hfault : NoFault (resolveSuperclass scopes name (.var id superName))) :
    resolveSuperclass scopes' name (.var id (ν.respell places superName)) =
      resolveSuperclass scopes name (.var id superName) := by
  obtain ⟨hself, hvar⟩ := NoFault.append_iff.mp hfault
  have hother : superName.lexeme ≠ name.lexeme := by
    intro heq
    simp [heq] at hself
  -- the new name is in no token of the text, so a class cannot come to inherit from itself
  have hother' : (ν.respell places superName).lexeme ≠ name.lexeme := by
    rcases hfits.spelled.or with heq | ⟨-, heq⟩
    · rw [heq]
      exact hother
    · rw [heq]
      exact hne.symm
  have hresolve := Expr.resolve_respelled h (.var id superName)
    (List.forall_mem_singleton.mpr hfits) hvar
  rw [Expr.relabel, NodeId.relabel_apply, Token.relabel_apply] at hresolve
  unfold resolveSuperclass
  dsimp only
  rw [if_neg hother, if_neg hother', hresolve]

mutual

/-- In a statement the resolver finds the same. -/
theorem resolve_respelled {scopes scopes' : StaticScopes} {around : Surroundings}
    {ctx : ResolveContext} (h : Match ν scopes scopes' around) (s : Stmt) (hwf : s.WellFormed)
    (hmarks : ∀ x ∈ s.occurrences around.scope?, ν.Marks places x)
    (hfits : ∀ u ∈ s.uses around, ν.Fits places distance? u)
    (hfault : NoFault (s.resolve ctx scopes).2) :
    ((s.relabel (ν.respell places)).resolve ctx scopes').2 = (s.resolve ctx scopes).2 ∧
      Match ν (s.resolve ctx scopes).1 ((s.relabel (ν.respell places)).resolve ctx scopes').1
        (around.after s) := by
  match s with
  | expression value | print value =>
    exact ⟨value.resolve_respelled h.sees (fun r hr => hfits _ (List.mem_map_of_mem hr)) hfault, h⟩
  | varDecl name initializer =>
    obtain ⟨hname, -⟩ := List.forall_mem_cons.mp hmarks
    obtain ⟨hdeclare, hinitializer⟩ := NoFault.append_iff.mp hfault
    obtain ⟨hfound, hsees, hafter⟩ := h.declare hname.1 hname.2 hdeclare
    have hinitializer := Expr.resolveOption_respelled hsees initializer hfits hinitializer
    refine ⟨?_, hafter⟩
    simp only [relabel, Token.relabel_apply, resolve, hfound, hinitializer]
  | block body =>
    exact ⟨(resolveList_respelled (h.openEmpty (.block body)) body hwf hmarks hfits hfault).1, h⟩
  | cond condition thenBranch none =>
    obtain ⟨-, hthenMarks⟩ := List.forall_mem_append.mp hmarks
    obtain ⟨hconditionFits, hthenFits⟩ := List.forall_mem_append.mp hfits
    obtain ⟨hcondition, hthen⟩ := NoFault.append_iff.mp hfault
    have hcondition := condition.resolve_respelled h.sees
      (fun r hr => hconditionFits _ (List.mem_map_of_mem hr)) hcondition
    obtain ⟨hthen, hafter⟩ := thenBranch.resolve_respelled h hwf.2.2 hthenMarks hthenFits hthen
    rw [Surroundings.after, hwf.2.1] at hafter
    refine ⟨?_, hafter⟩
    simp only [relabel, resolve, hcondition, hthen]
  | cond condition thenBranch (some elseBranch) =>
    obtain ⟨-, hmarks⟩ := List.forall_mem_append.mp hmarks
    obtain ⟨hthenMarks, helseMarks⟩ := List.forall_mem_append.mp hmarks
    obtain ⟨hfits, helseFits⟩ := List.forall_mem_append.mp hfits
    obtain ⟨hconditionFits, hthenFits⟩ := List.forall_mem_append.mp hfits
    obtain ⟨hfault, helse⟩ := NoFault.append_iff.mp hfault
    obtain ⟨hcondition, hthen⟩ := NoFault.append_iff.mp hfault
    have hcondition := condition.resolve_respelled h.sees
      (fun r hr => hconditionFits _ (List.mem_map_of_mem hr)) hcondition
    obtain ⟨hthen, hafter⟩ := thenBranch.resolve_respelled h hwf.2.1.2 hthenMarks hthenFits hthen
    -- a branch declares nothing, so behind it the surroundings are the same
    rw [Surroundings.after, hwf.2.1.1] at hafter
    obtain ⟨helse, hafter⟩ :=
      elseBranch.resolve_respelled hafter hwf.2.2.2 helseMarks helseFits helse
    rw [Surroundings.after, hwf.2.2.1] at hafter
    refine ⟨?_, hafter⟩
    simp only [relabel, resolve, hcondition, hthen, helse]
  | loop condition body =>
    obtain ⟨-, hbodyMarks⟩ := List.forall_mem_append.mp hmarks
    obtain ⟨hconditionFits, hbodyFits⟩ := List.forall_mem_append.mp hfits
    obtain ⟨hcondition, hbody⟩ := NoFault.append_iff.mp hfault
    have hcondition := condition.resolve_respelled h.sees
      (fun r hr => hconditionFits _ (List.mem_map_of_mem hr)) hcondition
    obtain ⟨hbody, hafter⟩ := body.resolve_respelled h hwf.2.2 hbodyMarks hbodyFits hbody
    rw [Surroundings.after, hwf.2.1] at hafter
    refine ⟨?_, hafter⟩
    simp only [relabel, resolve, hcondition, hbody]
  | funDecl ⟨name, params, body⟩ =>
    obtain ⟨hname, hmarks⟩ := List.forall_mem_cons.mp hmarks
    obtain ⟨hintroduce, hfunction⟩ := NoFault.append_iff.mp hfault
    obtain ⟨hfound, hafter⟩ := h.definition hname hintroduce
    have hfunction := resolveFunction_respelled hafter ⟨name, params, body⟩ hwf.2 hmarks hfits
      hfunction
    refine ⟨?_, hafter⟩
    exact congrArg₂ (· ++ ·) hfound hfunction
  | ret keyword value =>
    obtain ⟨hkeyword, -⟩ := List.forall_mem_cons.mp hmarks
    obtain ⟨-, hvalue⟩ := NoFault.append_iff.mp hfault
    have hvalue := Expr.resolveOption_respelled h.sees value hfits hvalue
    refine ⟨?_, h⟩
    -- whether a `return` is allowed depends on whether there is a value, not on its names
    have hreturn : returnFaults ctx.function keyword (value.map (Expr.relabel (ν.respell places))) =
        returnFaults ctx.function keyword value := by
      cases value <;> cases ctx.function <;> rfl
    rw [relabel, Token.relabel_apply, NewName.respell_of_not_mem hkeyword, resolve, resolve, hvalue,
      hreturn]
  | classDecl ⟨name, none, methods⟩ =>
    obtain ⟨hname, hmarks⟩ := List.forall_mem_cons.mp hmarks
    obtain ⟨hfault, hmethods⟩ := NoFault.append_iff.mp hfault
    obtain ⟨hintroduce, -⟩ := NoFault.append_iff.mp hfault
    obtain ⟨hfound, hafter⟩ := h.definition hname hintroduce
    have hinside := fun method => hafter.openWord (NewName.spelling_this method) .this
    have hmethods := resolveMethods_respelled hinside methods hwf.2.2 hmarks hfits hmethods
    refine ⟨?_, hafter⟩
    exact congrArg₂ (· ++ ·) (congrArg (· ++ []) hfound) hmethods
  | classDecl ⟨name, some superclass, methods⟩ =>
    obtain ⟨id, superName, rfl⟩ := hwf.2.1 superclass rfl
    obtain ⟨hname, hmarks⟩ := List.forall_mem_cons.mp hmarks
    obtain ⟨-, hmethodMarks⟩ := List.forall_mem_append.mp hmarks
    obtain ⟨hsuperFits, hmethodFits⟩ := List.forall_mem_append.mp hfits
    obtain ⟨hfault, hmethods⟩ := NoFault.append_iff.mp hfault
    obtain ⟨hintroduce, hsuperclass⟩ := NoFault.append_iff.mp hfault
    obtain ⟨hfound, hafter⟩ := h.definition hname hintroduce
    have hsuperclass := resolveSuperclass_respelled hafter.sees hname.1
      (hsuperFits _ List.mem_cons_self) hsuperclass
    have hinside := fun method => (hafter.openWord (NewName.spelling_super name methods)
      .super).openWord (NewName.spelling_this method) .this
    have hmethods := resolveMethods_respelled hinside methods hwf.2.2 hmethodMarks hmethodFits
      hmethods
    refine ⟨?_, hafter⟩
    -- the name of a class is not respelled
    have hkept : ν.respell places name = name := NewName.respell_of_not_mem hname.2.1
    rw [hkept] at hfound hsuperclass hmethods
    rw [relabel, Token.relabel_apply, hkept]
    exact congrArg₂ (· ++ ·) (congrArg₂ (· ++ ·) hfound hsuperclass) hmethods

/-- In statements the resolver finds the same. -/
theorem resolveList_respelled {scopes scopes' : StaticScopes} {around : Surroundings}
    {ctx : ResolveContext} (h : Match ν scopes scopes' around) (body : List Stmt)
    (hwf : WellFormedList body)
    (hmarks : ∀ x ∈ occurrencesList around.scope? body, ν.Marks places x)
    (hfits : ∀ u ∈ usesList around body, ν.Fits places distance? u)
    (hfault : NoFault (resolveList ctx scopes body).2) :
    (resolveList ctx scopes' (relabelList (ν.respell places) body)).2 =
        (resolveList ctx scopes body).2 ∧
      Match ν (resolveList ctx scopes body).1
        (resolveList ctx scopes' (relabelList (ν.respell places) body)).1
        (body.foldl Surroundings.after around) := by
  match body with
  | [] => exact ⟨rfl, h⟩
  | s :: rest =>
    obtain ⟨hmarks, hmarks'⟩ := List.forall_mem_append.mp hmarks
    obtain ⟨hfits, hfits'⟩ := List.forall_mem_append.mp hfits
    obtain ⟨hs, hrest⟩ := NoFault.append_iff.mp hfault
    obtain ⟨hs, hafter⟩ := s.resolve_respelled h hwf.1 hmarks hfits hs
    -- a declaration never changes what opened the innermost scope
    rw [← NewName.scope?_after around s] at hmarks'
    obtain ⟨hrest, hend⟩ := resolveList_respelled hafter rest hwf.2 hmarks' hfits' hrest
    exact ⟨congrArg₂ (· ++ ·) hs hrest, hend⟩

/-- In a function the resolver finds the same. -/
theorem resolveFunction_respelled {scopes scopes' : StaticScopes} {around : Surroundings}
    {ctx : ResolveContext} (h : Match ν scopes scopes' around) (d : FunctionDecl)
    (hwf : WellFormedFunction d) (hmarks : ∀ x ∈ occurrencesFunction d, ν.Marks places x)
    (hfits : ∀ u ∈ functionUses around d, ν.Fits places distance? u)
    (hfault : NoFault (resolveFunction ctx scopes d)) :
    resolveFunction ctx scopes' (relabelFunction (ν.respell places) d) =
      resolveFunction ctx scopes d := by
  match d with
  | ⟨name, params, body⟩ =>
    obtain ⟨hparams, hmarks⟩ := List.forall_mem_append.mp hmarks
    obtain ⟨hintroduce, hbody⟩ := NoFault.append_iff.mp hfault
    -- the body is in the scope of the parameters
    obtain ⟨hfound, hinside⟩ := h.introduce (.function ⟨name, params, body⟩)
      (fun t ht => hparams _ (List.mem_map_of_mem ht)) hintroduce
    have hbody := resolveList_respelled hinside body hwf.2 hmarks hfits hbody
    exact congrArg₂ (· ++ ·) hfound hbody.1

/-- In methods the resolver finds the same. -/
theorem resolveMethods_respelled {scopes scopes' : StaticScopes} {around : Surroundings}
    {cls : ClassContext}
    (h : ∀ method, Match ν scopes scopes' (⟨.this method, ["this"]⟩ :: around))
    (ds : List FunctionDecl) (hwf : WellFormedMethods ds)
    (hmarks : ∀ x ∈ occurrencesMethods ds, ν.Marks places x)
    (hfits : ∀ u ∈ methodUses around ds, ν.Fits places distance? u)
    (hfault : NoFault (resolveMethods cls scopes ds)) :
    resolveMethods cls scopes' (relabelFunctions (ν.respell places) ds) =
      resolveMethods cls scopes ds := by
  match ds with
  | [] => rfl
  | d :: rest =>
    obtain ⟨hname, hmarks⟩ := List.forall_mem_cons.mp hmarks
    obtain ⟨hmarks, hmarks'⟩ := List.forall_mem_append.mp hmarks
    obtain ⟨hfits, hfits'⟩ := List.forall_mem_append.mp hfits
    obtain ⟨hd, hrest⟩ := NoFault.append_iff.mp hfault
    have hd := resolveFunction_respelled (h d) d hwf.1 hmarks hfits hd
    have hrest := resolveMethods_respelled h rest hwf.2 hmarks' hfits' hrest
    -- the name of a method is a property, which no renaming of a variable touches
    have hkept : (relabelFunction (ν.respell places) d).name = d.name := by
      cases d
      exact NewName.respell_of_not_mem hname
    rw [relabelFunctions, resolveMethods, resolveMethods, hkept]
    exact congrArg₂ (· ++ ·) hd hrest

end

end Stmt

end Resolving

end Lox
