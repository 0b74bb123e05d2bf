import Lox.Proofs.Relexing

/-! # Reading other lexemes

The parser decides by the categories of tokens, and by nothing else of them.  So tokens with other lexemes, and
an end on another line, are read as the same tree with the other lexemes, or have the same faults at them, where
the parser recovers in the same way (`parseProgram_map`, `parseExpression_map`).  Each rule of the parser carries
a change of lexemes over (`Carries`), and the rules below follow the way parsers are built. -/

namespace Lox

/-! ### Changed inputs -/

/-- A place with another lexeme, or with another line at the end. -/
def Place.map (g : Lexeme → Lexeme) (last : Nat) : Place → Place
  | .at t => .at (g t)
  | .atEnd _ => .atEnd last

/-- A fault of the grammar at another place. -/
def ParseError.map (g : Lexeme → Lexeme) (last : Nat) (e : ParseError) : ParseError := ⟨e.fault, e.place.map g last⟩

/-- What is left to read, with other lexemes and an end on another line. -/
def Cursor.map (g : Lexeme → Lexeme) (last : Nat) (c : Cursor) : Cursor :=
  ⟨c.rest.map (Token.map g), last, c.errors.map (ParseError.map g last)⟩

section cursor

variable (g : Lexeme → Lexeme) (last : Nat)

theorem Cursor.place_map (c : Cursor) : (c.map g last).place = c.place.map g last := by
  obtain ⟨rest, endLine, errors⟩ := c
  cases rest <;> rfl

theorem Cursor.report_map (c : Cursor) (e : ParseError) :
    (c.map g last).report (e.map g last) = (c.report e).map g last := by
  simp [Cursor.report, Cursor.map]

/-- The end of changed tokens. -/
theorem Cursor.ofTokens_map (tokens : List Token) :
    Cursor.ofTokens (tokens.map (Token.map g)) =
      (Cursor.ofTokens tokens).map g (Cursor.ofTokens (tokens.map (Token.map g))).endLine := by
  have htake : (tokens.map (Token.map g)).takeWhile (·.kind ≠ .eof) =
      (tokens.takeWhile (·.kind ≠ .eof)).map (Token.map g) := by
    rw [List.takeWhile_map]
    rfl
  unfold Cursor.ofTokens Cursor.map
  rw [htake]
  rfl

end cursor

/-- An expression with other lexemes. -/
abbrev Expr.relex {ι : Type} (g : Lexeme → Lexeme) (e : Expr ι) : Expr ι := e.map id g

/-- A statement with other lexemes. -/
abbrev Stmt.relex {ι : Type} (g : Lexeme → Lexeme) (s : Stmt ι) : Stmt ι := s.map id g

/-- A function with other lexemes. -/
abbrev FunDecl.relex {ι : Type} (g : Lexeme → Lexeme) (d : FunDecl ι) : FunDecl ι := d.map id g

theorem Expr.mapEach_eq {ι κ : Type} (f : ι → κ) (g : Lexeme → Lexeme) (es : List (Expr ι)) :
    Expr.mapEach f g es = es.map (Expr.map f g) := by
  induction es with
  | nil => rfl
  | cons e es ih => rw [Expr.mapEach, ih, List.map_cons]

theorem FunDecl.mapEach_eq {ι κ : Type} (f : ι → κ) (g : Lexeme → Lexeme) (ds : List (FunDecl ι)) :
    FunDecl.mapEach f g ds = ds.map (FunDecl.map f g) := by
  induction ds with
  | nil => rfl
  | cons d ds ih => rw [FunDecl.mapEach, ih, List.map_cons]

namespace Parser

section carries

variable (g : Lexeme → Lexeme) (last : Nat)

/-- A result with other lexemes. -/
def relexed {α β : Type} (F : α → β) : EStateM.Result ParseError Cursor α → EStateM.Result ParseError Cursor β
  | .ok a c => .ok (F a) (c.map g last)
  | .error e c => .error (e.map g last) (c.map g last)

/-- Where the first parser reads something, the second reads it with other lexemes, and yields what `F` makes of
the result of the first. -/
def Carries {α β : Type} (F : α → β) (p : Parser α) (p' : Parser β) : Prop :=
  ∀ c, p' (c.map g last) = relexed g last F (p c)

variable {g last} {α α' β β' γ : Type} {F : α → α'} {G : β → β'}

namespace Carries

theorem pure (a : α) : Carries g last F (pure a) (pure (F a)) := fun _ => rfl

theorem bind {p : Parser α} {p' : Parser α'} {f : α → Parser β} {f' : α' → Parser β'}
    (h : Carries g last F p p') (hf : ∀ a, Carries g last G (f a) (f' (F a))) :
    Carries g last G (p >>= f) (p' >>= f') := by
  intro c
  change EStateM.bind p' f' _ = relexed g last G (EStateM.bind p f c)
  unfold EStateM.bind
  rw [h c]
  cases p c with
  | ok a c => exact hf a c
  | error e c => rfl

theorem map {p : Parser α} {p' : Parser α'} {f : α → β} {f' : α' → β'} (h : Carries g last F p p')
    (hf : ∀ a, f' (F a) = G (f a)) : Carries g last G (f <$> p) (f' <$> p') := by
  intro c
  change EStateM.map f' p' _ = relexed g last G (EStateM.map f p c)
  unfold EStateM.map
  rw [h c]
  cases p c with
  | ok a c => exact congrArg (EStateM.Result.ok · _) (hf a)
  | error e c => rfl

theorem fail (fault : ParseFault) : Carries g last F (fail fault) (fail fault) := by
  intro c
  unfold Parser.fail relexed
  rw [Cursor.place_map]
  rfl

theorem report (e : ParseError) : Carries g last id (report e) (report (e.map g last)) :=
  fun c => congrArg (EStateM.Result.ok ()) (Cursor.report_map g last c e)

theorem reportHere (fault : ParseFault) : Carries g last id (reportHere fault) (reportHere fault) := by
  intro c
  change EStateM.Result.ok () ((c.map g last).report ⟨fault, (c.map g last).place⟩) = _
  rw [Cursor.place_map]
  exact congrArg (EStateM.Result.ok ()) (Cursor.report_map g last c ⟨fault, c.place⟩)

theorem atEnd : Carries g last id atEnd atEnd := by
  intro c
  change EStateM.Result.ok (c.rest.map (Token.map g)).isEmpty _ = EStateM.Result.ok c.rest.isEmpty _
  rw [List.isEmpty_map]

theorem take? (want : Kind → Option β) :
    Carries g last (Option.map (Prod.map id g)) (take? want) (take? want) := by
  rintro ⟨rest, endLine, errors⟩
  cases rest with
  | nil => rfl
  | cons t rest =>
      change Parser.take? want ⟨t.map g :: rest.map (Token.map g), _, _⟩ = _
      simp only [Parser.take?, Token.map_kind]
      cases want t.kind <;> rfl

theorem accept? (kind : Kind) : Carries g last (Option.map g) (accept? kind) (accept? kind) := by
  rintro ⟨rest, endLine, errors⟩
  cases rest with
  | nil => rfl
  | cons t rest =>
      change (if t.kind = kind then _ else _) = relexed g last _ (if t.kind = kind then _ else _)
      split <;> rfl

theorem accept (kind : Kind) : Carries g last id (accept kind) (accept kind) :=
  .bind (.accept? kind) fun o => by
    rw [Option.isSome_map]
    exact .pure _

theorem expect (kind : Kind) (fault : ParseFault) : Carries g last g (expect kind fault) (expect kind fault) :=
  .bind (.accept? kind) fun o => by
    match o with
    | some t => exact .pure t
    | none => exact .fail fault

theorem nextIs (kind : Kind) : Carries g last id (nextIs kind) (nextIs kind) := by
  rintro ⟨rest, endLine, errors⟩
  cases rest <;> rfl

theorem loop {step : α → Parser (Option α)} {step' : α' → Parser (Option α')}
    (h : ∀ a, Carries g last (Option.map F) (step a) (step' (F a))) :
    ∀ limit a, Carries g last F (Parser.loop step limit a) (Parser.loop step' limit (F a))
  | 0, a => .pure a
  | limit + 1, a => .bind (h a) fun o => by
      match o with
      | some b => exact loop h limit b
      | none => exact .pure a

end Carries

/-! ### Expressions -/

section expressions

variable {nested operand : Parser PlainExpr} {limit : Nat}

/-- An expression is read with other lexemes. -/
abbrev CarriesExpr (g : Lexeme → Lexeme) (last : Nat) (p : Parser PlainExpr) : Prop :=
  Carries g last (Expr.relex g) p p

theorem leftJoined_carries {op? : Kind → Option β} {join : β → Lexeme → PlainExpr → PlainExpr → PlainExpr}
    (hjoin : ∀ op t a b, (join op t a b).relex g = join op (g t) (a.relex g) (b.relex g))
    (h : CarriesExpr g last operand) : CarriesExpr g last (leftJoined op? join limit operand) :=
  .bind h fun first => .loop (fun left => .bind (.take? op?) fun o => by
    match o with
    | some (op, sign) =>
        refine .bind h fun right => ?_
        rw [id, ← hjoin]
        exact .pure (some (join op sign left right))
    | none => exact .pure none) limit first

theorem commaSeparated_carries {item : Parser α} {item' : Parser α'} (fault : ParseFault)
    (h : Carries g last F item item') :
    Carries g last (List.map F) (commaSeparated fault limit item) (commaSeparated fault limit item') := by
  have hchecked (count : Nat) : Carries g last F
      (do
        if maxArity ≤ count then reportHere fault
        item)
      (do
        if maxArity ≤ count then reportHere fault
        item') := by
    split
    · exact .bind (G := F) (.reportHere fault) fun _ => h
    · exact h
  refine .bind (hchecked 0) fun first => ?_
  refine .bind (.loop (F := List.map F) (fun items => .bind (.accept .comma) fun b => ?_) limit [first])
    fun items => ?_
  · cases b with
    | true =>
        refine .bind (?_ : Carries g last F _ _) fun item => .pure (some (item :: items))
        rw [List.length_map]
        exact hchecked items.length
    | false => exact .pure none
  · rw [← List.map_reverse]
    exact .pure items.reverse

theorem arguments_carries (h : CarriesExpr g last nested) :
    Carries g last (Prod.map (List.map (Expr.relex g)) g) (arguments limit nested) (arguments limit nested) := by
  have hend (es : List PlainExpr) : Carries g last (Prod.map (List.map (Expr.relex g)) g)
      (do return (es, ← expect .rightParen .argumentsEnd))
      (do return (es.map (Expr.relex g), ← expect .rightParen .argumentsEnd)) :=
    .bind (.expect _ _) fun t => .pure (es, t)
  refine .bind (.nextIs .rightParen) fun b => ?_
  cases b with
  | true => exact hend []
  | false => exact .bind (commaSeparated_carries .tooManyArguments h) hend

theorem primary_carries (h : CarriesExpr g last nested) : CarriesExpr g last (primary nested) := by
  refine .bind (.take? literalValue) fun o => ?_
  match o with
  | some (value, _) => exact .pure (Expr.literal () value)
  | none =>
  refine .bind (.accept? (.keyword .super)) fun o => ?_
  match o with
  | some keyword =>
      exact .bind (.expect _ _) fun _ => .bind (.expect _ _) fun method => .pure (Expr.super ⟨(), keyword⟩ method)
  | none =>
  refine .bind (.accept? (.keyword .this)) fun o => ?_
  match o with
  | some keyword => exact .pure (Expr.this ⟨(), keyword⟩)
  | none =>
  refine .bind (.accept? .identifier) fun o => ?_
  match o with
  | some name => exact .pure (Expr.name ⟨(), name⟩)
  | none =>
  refine .bind (.accept .leftParen) fun b => ?_
  match b with
  | true => exact .bind h fun inner => .bind (.expect _ _) fun _ => .pure (Expr.group () inner)
  | false => exact .fail _

theorem postfixed_carries (h : CarriesExpr g last nested) : CarriesExpr g last (postfixed limit nested) := by
  refine .bind (primary_carries h) fun first => .loop (fun e => ?_) limit first
  refine .bind (.accept .leftParen) fun b => ?_
  match b with
  | true =>
      refine .bind (arguments_carries h) fun (values, closing) => ?_
      have hcall : (Expr.call () e closing values).relex g =
          .call () (e.relex g) (g closing) (values.map (Expr.relex g)) := by
        rw [← Expr.mapEach_eq]
        rfl
      change Carries g last _ _ (Pure.pure (some (Expr.call () (e.relex g) (g closing) (values.map (Expr.relex g)))))
      rw [← hcall]
      exact .pure (some (Expr.call () e closing values))
  | false =>
      refine .bind (.accept .dot) fun b => ?_
      match b with
      | true => exact .bind (.expect _ _) fun name => .pure (some (Expr.get () e name))
      | false => exact .pure none

theorem prefixed_carries (h : CarriesExpr g last nested) : CarriesExpr g last (prefixed limit nested) := by
  let step (ops : List (UnaryOp × Lexeme)) : Parser (Option (List (UnaryOp × Lexeme))) :=
    return (← take? prefixOp).map (· :: ops)
  have hops : Carries g last (List.map (Prod.map id g)) (Parser.loop step limit []) (Parser.loop step limit []) :=
    .loop (fun ops => .bind (.take? prefixOp) fun o => by
      cases o with
      | none => exact .pure none
      | some op => exact .pure (some (op :: ops))) limit []
  refine .bind hops fun ops => .bind (postfixed_carries h) fun operand => ?_
  have hfold : ∀ e : PlainExpr, (ops.foldl (fun e o => .unary () o.1 o.2 e) e).relex g =
      (ops.map (Prod.map id g)).foldl (fun e o => .unary () o.1 o.2 e) (e.relex g) := by
    induction ops with
    | nil => exact fun e => rfl
    | cons op ops ih => exact fun e => ih _
  change Carries g last _ (Pure.pure (ops.foldl (fun e o => .unary () o.1 o.2 e) operand))
    (Pure.pure ((ops.map (Prod.map id g)).foldl (fun e o => .unary () o.1 o.2 e) (operand.relex g)))
  rw [← hfold]
  exact .pure _

theorem operation_carries (h : CarriesExpr g last nested) : CarriesExpr g last (operation limit nested) :=
  leftJoined_carries (fun _ _ _ _ => rfl) <| leftJoined_carries (fun _ _ _ _ => rfl) <|
    leftJoined_carries (fun _ _ _ _ => rfl) <| leftJoined_carries (fun _ _ _ _ => rfl) (prefixed_carries h)

theorem disjunction_carries (h : CarriesExpr g last nested) : CarriesExpr g last (disjunction limit nested) :=
  leftJoined_carries (fun _ _ _ _ => rfl) <| leftJoined_carries (fun _ _ _ _ => rfl) (operation_carries h)

theorem assignment_carries (h : CarriesExpr g last nested) : CarriesExpr g last (assignment limit nested) := by
  refine .bind (disjunction_carries h) fun target => .bind (.accept? .equal) fun o => ?_
  match o with
  | none => exact .pure target
  | some sign =>
      refine .bind h fun value => ?_
      have hother : Carries g last (Expr.relex g) (do report ⟨.assignmentTarget, .at sign⟩; return target)
          (do report ⟨.assignmentTarget, .at (g sign)⟩; return target.relex g) :=
        .bind (.report ⟨.assignmentTarget, .at sign⟩) fun _ => .pure target
      cases target with
      | name ref => exact .pure (Expr.assign ref value)
      | get id object name => exact .pure (Expr.set () object name value)
      | _ => exact hother

theorem expression_carries : ∀ depth, CarriesExpr g last (expression depth)
  | 0 => .fail _
  | depth + 1 => by
      unfold CarriesExpr
      rw [expression_succ]
      exact assignment_carries (expression_carries depth)

theorem expressionThen_carries (fault : ParseFault) (h : CarriesExpr g last nested) :
    CarriesExpr g last (expressionThen fault nested) :=
  .bind h fun value => .bind (.expect _ _) fun _ => .pure value

theorem unlessNext_carries (kind : Kind) (h : CarriesExpr g last nested) :
    Carries g last (Option.map (Expr.relex g)) (unlessNext kind nested) (unlessNext kind nested) :=
  .bind (.nextIs kind) fun b => by
    match b with
    | true => exact .pure none
    | false => exact .bind h fun e => .pure (some e)

end expressions

/-! ### Statements -/

section statements

variable {expr : Parser PlainExpr} {stmt : Parser PlainStmt} {decl : Parser (Option PlainStmt)} {limit : Nat}

/-- A statement is read with other lexemes. -/
abbrev CarriesStmt (g : Lexeme → Lexeme) (last : Nat) (p : Parser PlainStmt) : Prop :=
  Carries g last (Stmt.relex g) p p

/-- A declaration, which may be faulty, is read with other lexemes. -/
abbrev CarriesDecl (g : Lexeme → Lexeme) (last : Nat) (p : Parser (Option PlainStmt)) : Prop :=
  Carries g last (Option.map (Stmt.relex g)) p p

theorem variableDeclaration_carries (h : CarriesExpr g last expr) :
    CarriesStmt g last (variableDeclaration expr) := by
  refine .bind (.expect _ _) fun name => .bind (.accept .equal) fun b => ?_
  have hend (e : Option PlainExpr) : Carries g last (Stmt.relex g)
      (do let _ ← expect .semicolon .variableEnd; return .var name e)
      (do let _ ← expect .semicolon .variableEnd; return .var (g name) (e.map (Expr.relex g))) :=
    .bind (.expect _ _) fun _ => .pure (Stmt.var name e)
  match b with
  | true => exact .bind (F := Option.map (Expr.relex g)) (h.map fun _ => rfl) hend
  | false => exact .bind (F := Option.map (Expr.relex g)) (.pure none) hend

/-- Declarations in order are read with other lexemes. -/
theorem collect_carries {stop : Parser Bool} (hstop : Carries g last id stop stop) (hd : CarriesDecl g last decl)
    (n : Nat) (body : List PlainStmt) :
    Carries g last (List.map (Stmt.relex g))
      (loop (fun body => do
        if ← stop then return none
        else return some ((← decl).toList ++ body)) n body)
      (loop (fun body => do
        if ← stop then return none
        else return some ((← decl).toList ++ body)) n (body.map (Stmt.relex g))) :=
  .loop (fun body => .bind hstop fun b => by
    match b with
    | true => exact .pure none
    | false =>
        refine .bind hd fun o => ?_
        have ho : (o.map (Stmt.relex g)).toList ++ body.map (Stmt.relex g) =
            (o.toList ++ body).map (Stmt.relex g) := by cases o <;> rfl
        rw [ho]
        exact .pure (some (o.toList ++ body))) n body

theorem atBlockEnd_carries : Carries g last id (do return (← nextIs .rightBrace) || (← atEnd))
    (do return (← nextIs .rightBrace) || (← atEnd)) :=
  .bind (.nextIs _) fun _ => .bind .atEnd fun _ => .pure _

theorem block_carries (h : CarriesDecl g last decl) :
    Carries g last (List.map (Stmt.relex g)) (block limit decl) (block limit decl) := by
  refine .bind (F := List.map (Stmt.relex g)) ?_ fun body => .bind (.expect _ _) fun _ => ?_
  · have hloop := collect_carries atBlockEnd_carries h limit []
    simpa only [bind_assoc, pure_bind, List.map_nil] using hloop
  · rw [← List.map_reverse]
    exact .pure body.reverse

/-- A function or method is read with other lexemes. -/
abbrev CarriesRoutine (g : Lexeme → Lexeme) (last : Nat) (p : Parser (FunDecl Unit)) : Prop :=
  Carries g last (FunDecl.relex g) p p

theorem routine_carries (sort : Routine) (h : CarriesDecl g last decl) :
    CarriesRoutine g last (routine sort limit decl) := by
  refine .bind (.expect _ _) fun name => .bind (.expect _ _) fun _ => .bind (.nextIs _) fun b => ?_
  have hrest (params : List Lexeme) : Carries g last (FunDecl.relex g)
      (do
        let _ ← expect .rightParen .parametersEnd
        let _ ← expect .leftBrace (.bodyStart sort)
        return .mk name params (← block limit decl))
      (do
        let _ ← expect .rightParen .parametersEnd
        let _ ← expect .leftBrace (.bodyStart sort)
        return .mk (g name) (params.map g) (← block limit decl)) := by
    refine .bind (.expect _ _) fun _ => .bind (.expect _ _) fun _ => .bind (block_carries h) fun body => ?_
    rw [← Stmt.mapAll_eq]
    exact .pure (FunDecl.mk name params body)
  match b with
  | true => exact hrest []
  | false => exact .bind (commaSeparated_carries .tooManyParameters (.expect _ _)) hrest

theorem classDeclaration_carries (h : CarriesDecl g last decl) :
    CarriesStmt g last (classDeclaration limit decl) := by
  refine .bind (.expect _ _) fun name => .bind (.accept .less) fun b => ?_
  have hrest (superclass : Option (Reference Unit)) : Carries g last (Stmt.relex g)
      (do
        let _ ← expect .leftBrace .classBodyStart
        let methods ← loop (fun methods => do
          if (← nextIs .rightBrace) || (← atEnd) then return none
          else return some ((← routine .method limit decl) :: methods)) limit []
        let _ ← expect .rightBrace .classBodyEnd
        return .cls name superclass methods.reverse)
      (do
        let _ ← expect .leftBrace .classBodyStart
        let methods ← loop (fun methods => do
          if (← nextIs .rightBrace) || (← atEnd) then return none
          else return some ((← routine .method limit decl) :: methods)) limit []
        let _ ← expect .rightBrace .classBodyEnd
        return .cls (g name) (superclass.map (·.map id g)) methods.reverse) := by
    refine .bind (.expect _ _) fun _ => .bind (.loop (F := List.map (FunDecl.relex g)) (fun methods => ?_) limit [])
      fun methods => .bind (.expect _ _) fun _ => ?_
    · refine .bind (.nextIs _) fun b => .bind .atEnd fun b' => ?_
      change Carries g last _ (if (b || b') = true then _ else _) (if (b || b') = true then _ else _)
      cases b || b' with
      | true => exact .pure none
      | false =>
          exact .bind (G := Option.map _) (routine_carries .method h) fun decl => .pure (some (decl :: methods))
    · rw [← List.map_reverse, ← FunDecl.mapEach_eq]
      exact .pure (Stmt.cls name superclass methods.reverse)
  match b with
  | true => exact .bind (.expect _ _) fun lexeme => hrest (some ⟨(), lexeme⟩)
  | false => exact hrest none

theorem forInitializer_carries (h : CarriesExpr g last expr) :
    CarriesDecl g last (forInitializer expr) := by
  refine .bind (.accept .semicolon) fun b => ?_
  match b with
  | true => exact .pure none
  | false =>
  refine .bind (.accept (.keyword .var)) fun b => ?_
  match b with
  | true => exact .map (variableDeclaration_carries h) fun _ => rfl
  | false => exact .map (expressionThen_carries _ h) fun _ => rfl

theorem forStatement_carries (he : CarriesExpr g last expr) (hs : CarriesStmt g last stmt) :
    CarriesStmt g last (forStatement expr stmt) := by
  refine .bind (.expect _ _) fun _ => .bind (forInitializer_carries he) fun start =>
    .bind (unlessNext_carries _ he) fun condition => .bind (.expect _ _) fun _ =>
    .bind (unlessNext_carries _ he) fun step => .bind (.expect _ _) fun _ => .bind hs fun body => ?_
  change Carries g last _ _ (Pure.pure (forLoop (start.map _) (condition.map _) (step.map _) (body.map id g)))
  rw [← forLoop_map]
  exact .pure (forLoop start condition step body)

theorem ifStatement_carries (he : CarriesExpr g last expr) (hs : CarriesStmt g last stmt) :
    CarriesStmt g last (ifStatement expr stmt) := by
  refine .bind (.expect _ _) fun _ => .bind he fun condition => .bind (.expect _ _) fun _ =>
    .bind hs fun yes => .bind (.accept (.keyword .else_)) fun b => ?_
  match b with
  | true =>
      exact .bind (F := Option.map (Stmt.relex g)) (.map hs fun _ => rfl) fun
        | some no => .pure (Stmt.ite condition yes (some no))
        | none => .pure (Stmt.ite condition yes none)
  | false => exact .pure (Stmt.ite condition yes none)

theorem whileStatement_carries (he : CarriesExpr g last expr) (hs : CarriesStmt g last stmt) :
    CarriesStmt g last (whileStatement expr stmt) :=
  .bind (.expect _ _) fun _ => .bind he fun condition => .bind (.expect _ _) fun _ =>
    .bind hs fun body => .pure (Stmt.while condition body)

theorem statementWith_carries (hs : CarriesStmt g last stmt) (hd : CarriesDecl g last decl) :
    CarriesStmt g last (statementWith limit stmt decl) := by
  have he : CarriesExpr g last (expression limit) := expression_carries limit
  refine .bind (.accept _) fun b => ?_
  match b with
  | true => exact forStatement_carries he hs
  | false =>
  refine .bind (.accept _) fun b => ?_
  match b with
  | true => exact ifStatement_carries he hs
  | false =>
  refine .bind (.accept _) fun b => ?_
  match b with
  | true => exact .map (expressionThen_carries _ he) fun _ => rfl
  | false =>
  refine .bind (.accept? _) fun o => ?_
  match o with
  | some keyword =>
      exact .bind (unlessNext_carries _ he) fun value => .bind (.expect _ _) fun _ =>
        .pure (Stmt.ret keyword value)
  | none =>
  refine .bind (.accept _) fun b => ?_
  match b with
  | true => exact whileStatement_carries he hs
  | false =>
  refine .bind (.accept _) fun b => ?_
  match b with
  | true =>
      refine .map (block_carries hd) fun body => ?_
      rw [← Stmt.mapAll_eq]
      rfl
  | false => exact .map (expressionThen_carries _ he) fun _ => rfl

theorem declarationWith_carries (hs : CarriesStmt g last stmt) (hd : CarriesDecl g last decl) :
    CarriesStmt g last (declarationWith limit stmt decl) := by
  refine .bind (.accept _) fun b => ?_
  match b with
  | true => exact classDeclaration_carries hd
  | false =>
  refine .bind (.accept _) fun b => ?_
  match b with
  | true => exact .map (routine_carries .function hd) fun _ => rfl
  | false =>
  refine .bind (.accept _) fun b => ?_
  match b with
  | true => exact variableDeclaration_carries (expression_carries limit)
  | false => exact hs

/-! ### Recovery -/

theorem skipAfter_map (previous : Token) (ts : List Token) :
    skipAfter (previous.map g) (ts.map (Token.map g)) = (skipAfter previous ts).map (Token.map g) := by
  induction ts generalizing previous with
  | nil => rfl
  | cons t ts ih =>
      rw [List.map_cons, skipAfter, skipAfter, ih, Token.map_kind, Token.map_kind]
      split <;> rfl

theorem synchronize_map (c : Cursor) : synchronize (c.map g last) = (synchronize c).map g last := by
  obtain ⟨rest, endLine, errors⟩ := c
  cases rest with
  | nil => rfl
  | cons t rest => exact congrArg (Cursor.mk · last _) (skipAfter_map t rest)

theorem recovering_carries {p : Parser α} {p' : Parser α'} (h : Carries g last F p p') :
    Carries g last (Option.map F) (recovering p) (recovering p') := by
  intro c
  unfold recovering
  rw [h c]
  cases p c with
  | ok a c => rfl
  | error e c =>
      have hskip : synchronize ((c.map g last).report (e.map g last)) =
          (synchronize (c.report e)).map g last := by
        rw [Cursor.report_map, synchronize_map]
      exact congrArg (EStateM.Result.ok none) hskip

mutual

theorem statement_carries : ∀ depth, CarriesStmt g last (statement depth)
  | 0 => .fail _
  | depth + 1 => by
      unfold CarriesStmt
      rw [statement_succ]
      exact statementWith_carries (statement_carries depth) (declaration_carries depth)

theorem declaration_carries : ∀ depth, CarriesDecl g last (declaration depth)
  | 0 => .pure none
  | depth + 1 => by
      unfold CarriesDecl
      rw [declaration_succ]
      exact recovering_carries (declarationWith_carries (statement_carries depth) (declaration_carries depth))

end

/-! ### Whole inputs -/

theorem declarations_carries (depth : Nat) :
    Carries g last (List.map (Stmt.relex g)) (declarations depth) (declarations depth) := by
  refine .bind (F := List.map (Stmt.relex g)) (collect_carries .atEnd (declaration_carries depth) depth [])
    fun body => ?_
  rw [← List.map_reverse]
  exact .pure body.reverse

theorem soleExpression_carries (depth : Nat) : CarriesExpr g last (soleExpression depth) :=
  .bind (expression_carries depth) fun e => .bind .atEnd fun b => by
    match b with
    | true => exact .pure e
    | false => exact .fail _

end statements

end carries

end Parser

/-! ### Programs and expressions -/

section whole

variable (g : Lexeme → Lexeme) (tokens : List Token)

theorem runParser_map {α β : Type} {F : α → β} {p : Parser α} {p' : Parser β}
    (h : ∀ last, Parser.Carries g last F p p') :
    runParser p' (tokens.map (Token.map g)) = match runParser p tokens with
      | .ok a => .ok (F a)
      | .error es => .error (es.map (.map g (Cursor.ofTokens (tokens.map (Token.map g))).endLine)) := by
  have hread := h _ _ ▸ congrArg p' (Cursor.ofTokens_map g tokens)
  unfold runParser
  rw [hread]
  generalize (Cursor.ofTokens (tokens.map (Token.map g))).endLine = last
  cases p (Cursor.ofTokens tokens) with
  | ok a c =>
      obtain ⟨rest, endLine, errors⟩ := c
      cases errors <;> rfl
  | error e c =>
      have hfaults : (c.errors ++ [e]).map (ParseError.map g last) = c.errors.map _ ++ [e.map g last] := List.map_append
      exact congrArg Except.error hfaults.symm

/-- Tokens with other lexemes are read as the program with the other lexemes, or have its faults at them. -/
theorem parseProgram_map :
    parseProgram (tokens.map (Token.map g)) = match parseProgram tokens with
      | .ok body => .ok (Stmt.mapAll id g body)
      | .error es => .error (es.map (.map g (Cursor.ofTokens (tokens.map (Token.map g))).endLine)) := by
  unfold parseProgram Parser.depthFor
  rw [List.length_map, runParser_map g tokens fun _ => Parser.declarations_carries _]
  cases runParser (Parser.declarations _) tokens with
  | ok body => exact congrArg Except.ok (Stmt.mapAll_eq id g body).symm
  | error es => rfl

/-- Tokens with other lexemes are read as the expression with the other lexemes, or have its faults at them. -/
theorem parseExpression_map :
    parseExpression (tokens.map (Token.map g)) = match parseExpression tokens with
      | .ok e => .ok (e.map id g)
      | .error es => .error (es.map (.map g (Cursor.ofTokens (tokens.map (Token.map g))).endLine)) := by
  unfold parseExpression Parser.depthFor
  rw [List.length_map, runParser_map g tokens fun _ => Parser.soleExpression_carries _]
  cases runParser (Parser.soleExpression _) tokens <;> rfl

end whole

end Lox
