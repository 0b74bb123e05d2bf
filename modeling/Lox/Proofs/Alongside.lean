import Lox.Proofs.Abreast

/-! # Evaluation alongside

A program with braces more runs alongside the one without them (`alongside`): their actions go together, when the
second run has twice the fuel, since a pair of braces takes one unit at most for every unit of what it contains.
The induction is on the fuel of the first run; the cases follow the definitions of evaluation, one lemma for each,
and the one new case is that of braces that the first program does not have, where the second run makes a frame
and the first does nothing. -/

namespace Lox

open Lox.Action

/-! ### Fuel -/

/-- Fuel for the first run and for the second, with some units to be lent.  Unless `p` holds the first has as much
as the second, so that it does not run out alone; unless `q` holds the second has twice as much as the first. -/
structure Supplied (p q : Prop) (lent f g : Nat) : Prop where
  left : p ∨ g ≤ f
  right : q ∨ 2 * f ≤ g + lent

namespace Supplied

variable {p q : Prop} {f g : Nat}

/-- What is inside a node has a unit less. -/
theorem inside (h : Supplied p q 1 (f + 1) (g + 1)) : Supplied p q 0 f g where
  left := h.left.imp_right Nat.le_of_succ_le_succ
  right := h.right.imp_right fun _ => by omega

theorem lend (h : Supplied p q 0 f g) : Supplied p q 1 f g where
  left := h.left
  right := h.right.imp_right Nat.le_succ_of_le

/-- What is inside extra braces has a unit less in the second run. -/
theorem inExtra (h : Supplied p q 0 f (g + 1)) : Supplied p q 1 f g where
  left := h.left.imp_right Nat.le_of_succ_le
  right := h.right

/-- A loop may run as often in the second run, and no oftener. -/
theorem limit (h : Supplied p q 0 f g) : (p ∨ g ≤ f) ∧ (q ∨ f ≤ g) :=
  ⟨h.left, h.right.imp_right fun _ => by omega⟩

end Supplied

section evaluation

variable (U : Tables) (S : Settings) (G : Nat) (p q : Prop)

/-- Expressions go together with this much fuel in the first run. -/
def EvalsTogether (f : Nat) : Prop :=
  ∀ {g}, Supplied p q 1 f g → ∀ {Γ e}, U.FitsAll Γ e.references → ∀ {w env env'}, Aligned w Γ env env' →
    Together U p q w env env' (eval S f e) (eval { S with fuel := G } g e) (ValueBeside U)

/-- Statements that are the same but for braces go together with this much fuel in the first run. -/
def ExecsTogether (f : Nat) : Prop :=
  ∀ {g}, Supplied p q 0 f g → ∀ {Γ s s'}, BracedStmt U Γ s s' → ∀ {w env env'}, Aligned w Γ env env' →
    Together U p q w env env' (exec S f s) (exec { S with fuel := G } g s') (fun _ _ _ => True)

variable {U S G p q} {w : Partners} {env env' : Env} {f g : Nat} {Γ : Layers}

/-! ### Operators -/

/-- Operators do the same in both runs. -/
theorem computes_together {line : Nat} {act act' : Action Value} (h : Action.ComputeAlike line line act act') :
    Together U p q w env env' act act' (ValueBeside U) := by
  cases h with
  | value hv => exact .pure (.scalar hv)
  | fault fault => exact .fail fault line

/-! ### Lists of statements and of expressions -/

theorem runAll_together (hex : ExecsTogether U S G p q f) (hg : Supplied p q 0 f g) :
    ∀ {ss ss' : List (Stmt NodeId)}, BracedStmts U Γ ss ss' → ∀ {w : Partners}, Aligned w Γ env env' →
      Together U p q w env env' (runAll (exec S f) ss) (runAll (exec { S with fuel := G } g) ss')
        (fun _ _ _ => True) := by
  intro ss
  induction ss with
  | nil =>
      rintro ss' ⟨⟩ w _
      exact .pure trivial
  | cons s ss ih =>
      intro ss' h w ha
      cases h with
      | cons h hs => exact .bind (hex hg h ha) fun w₁ hw _ _ _ => ih hs (ha.mono hw)

theorem evalEach_together (hev : EvalsTogether U S G p q f) (hg : Supplied p q 0 f g) :
    ∀ {es : List (Expr NodeId)}, (U.FitsAll Γ (Expr.referencesEach es)) → ∀ {w : Partners}, Aligned w Γ env env' →
      Together U p q w env env' (evalEach (eval S f) es) (evalEach (eval { S with fuel := G } g) es)
        (fun w₁ => List.Forall₂ (ValueBeside U w₁)) := by
  intro es
  induction es with
  | nil =>
      intro _ w _
      exact .pure .nil
  | cons e es ih =>
      intro he w ha
      refine .bind (hev hg.lend he.left ha) fun w₁ hw₁ v v' hv => ?_
      refine .bind (ih he.right (ha.mono hw₁)) fun w₂ hw₂ vs vs' hvs => ?_
      exact .pure (.cons (hv.mono (.refl U) hw₂) hvs)

/-! ### Calls -/

/-- Names bound one after another to values beside each other. -/
theorem SlotsBeside.defineEach (params : List Lexeme) {vs vs' : List Value}
    (hvs : List.Forall₂ (ValueBeside U w) vs vs') {s s' : Slots} (hs : SlotsBeside U w s s') :
    SlotsBeside U w ((params.zip vs).foldl (fun slots (param, value) => slots.define param.text value) s)
      ((params.zip vs').foldl (fun slots (param, value) => slots.define param.text value) s') := by
  induction params generalizing vs vs' s s' with
  | nil => exact hs
  | cons t params ih =>
      cases hvs with
      | nil => exact hs
      | cons hv hvs => exact ih hvs (Slots.define_rel hs t.text hv)

theorem bindParams_beside (params : List Lexeme) {vs vs' : List Value}
    (hvs : List.Forall₂ (ValueBeside U w) vs vs') : SlotsBeside U w (bindParams params vs) (bindParams params vs') :=
  .defineEach params hvs .nil

theorem Closure.invoke_together (hex : ExecsTogether U S G p q f) (hg : Supplied p q 0 f g) {c c' : Closure}
    (hc : ClosureBeside U w c c') {vs vs' : List Value} (hvs : List.Forall₂ (ValueBeside U w) vs vs') :
    Together U p q w env env' (c.invoke (exec S f) vs) (c'.invoke (exec { S with fuel := G } g) vs')
      (ValueBeside U) := by
  obtain ⟨decl, closed, initializer⟩ := c
  obtain ⟨decl', closed', initializer'⟩ := c'
  obtain ⟨hi, Γ, ha, hd, ho⟩ := hc
  dsimp only at hi ha hd ho
  subst hi
  cases hd with
  | mk t params hbody =>
      refine .bind (.nest ha (bindParams_beside params hvs)) fun w₁ hw₁ inner inner' hin => ?_
      refine .bind (.returning (.within (runAll_together hex hg hbody hin))) fun w₂ hw₂ v v' hv => ?_
      cases hb : initializer' with
      | false => exact .pure hv
      | true =>
          refine .get fun m m' hm _ _ => ?_
          have hthis := hm.heap.getAt (ha.mono (hw₁.trans hw₂)) 0 "this"
          rw [(ho hb).outward_zero] at hthis
          exact .sound hthis fun _ _ hu => hu

theorem Closure.bindTo_together {c c' : Closure} (hc : MethodBeside U w c c') {o o' : Value}
    (ho : ValueBeside U w o o') :
    Together U p q w env env' (c.bindTo o) (c'.bindTo o') (ClosureBeside U) := by
  obtain ⟨hi, Γ, ha, hd⟩ := hc
  refine .bind (.nest ha (.cons ⟨rfl, ho⟩ .nil)) fun w₁ _ inner inner' hin => ?_
  exact .pure ⟨hi, _, hin, hd, fun _ => Layers.open_shared Γ⟩

theorem Class.construct_together (hex : ExecsTogether U S G p q f) (hg : Supplied p q 0 f g) {c c' : Class}
    (hc : ClassBeside U w c c') {vs vs' : List Value} (hvs : List.Forall₂ (ValueBeside U w) vs vs') :
    Together U p q w env env' (c.construct (exec S f) vs) (c'.construct (exec { S with fuel := G } g) vs')
      (ValueBeside U) := by
  unfold Class.construct
  refine .bind .newInstance fun w₁ hw₁ i i' hi => ?_
  subst hi
  have ho : ValueBeside U w₁ (.instance_ i' c) (.instance_ i' c') := .instance_ i' (hc.mono (.refl U) hw₁)
  have hf := hc.find? initializerName
  cases hc₁ : c.find? initializerName with
  | none =>
      rw [hc₁] at hf
      rw [hf.eq_none]
      exact .pure ho
  | some k =>
      rw [hc₁] at hf
      obtain ⟨k', hk', hk⟩ := hf.exists_some
      rw [hk']
      refine .bind (Closure.bindTo_together (hk.mono (.refl U) hw₁) ho) fun w₂ hw₂ b b' hb => ?_
      have hvs' := hvs.imp fun _ _ hv => hv.mono (.refl U) (hw₁.trans hw₂)
      refine .bind (Closure.invoke_together hex hg hb hvs') fun w₃ hw₃ _ _ _ => ?_
      exact .pure (ho.mono (.refl U) (hw₂.trans hw₃))

/-- The checks before a call, and the call. -/
theorem call_together {v v' : Value} (k k' : Callable) (hv : v.callable? = some k) (hv' : v'.callable? = some k')
    (hk : k'.arity = k.arity) {vs vs' : List Value} (hvs : vs'.length = vs.length) (line : Nat)
    {ex ex' : Stmt NodeId → Action Unit}
    (h : Together U p q w env env' (k.call S ex vs) (k'.call { S with fuel := G } ex' vs') (ValueBeside U)) :
    Together U p q w env env' (v.call S ex line vs) (v'.call { S with fuel := G } ex' line vs')
      (ValueBeside U) := by
  unfold Value.call
  rw [hv, hv', hvs]
  dsimp only
  rw [hk]
  split
  · exact .fail _ _
  · refine .get fun m m' hm _ _ => ?_
    rw [hm.depth]
    split
    · exact .fail _ _
    · exact .deeper h

theorem Value.call_together (hex : ExecsTogether U S G p q f) (hg : Supplied p q 0 f g) {v v' : Value}
    (hv : ValueBeside U w v v') (line : Nat) {vs vs' : List Value}
    (hvs : List.Forall₂ (ValueBeside U w) vs vs') :
    Together U p q w env env' (v.call S (exec S f) line vs)
      (v'.call { S with fuel := G } (exec { S with fuel := G } g) line vs') (ValueBeside U) := by
  have hlen := hvs.length_eq.symm
  cases hv with
  | clock => exact Lox.call_together .clock .clock rfl rfl rfl hlen line (.readClock S.clock)
  | @function i c c' h =>
      have hc := h
      obtain ⟨-, Γ, -, hd, -⟩ := hc
      exact Lox.call_together (.function c) (.function c') rfl rfl hd.arity_eq hlen line
        (Closure.invoke_together hex hg h hvs)
  | @cls c c' h =>
      exact Lox.call_together (.cls c) (.cls c') rfl rfl h.arity hlen line
        (Class.construct_together hex hg h hvs)
  | _ => exact .fail _ _

/-! ### Properties -/

/-- A method bound to an instance, as a value of its own. -/
theorem bindMethod_together {c c' : Closure} (hc : MethodBeside U w c c') {o o' : Value}
    (ho : ValueBeside U w o o') :
    Together U p q w env env' (c.bindTo o >>= newFunction) (c'.bindTo o' >>= newFunction) (ValueBeside U) :=
  .bind (Closure.bindTo_together hc ho) fun _ _ _ _ h => .newFunction h

/-- The method of a class that a name stands for, bound to an instance, or a fault. -/
theorem findMethod_together {c c' : Class} (hc : ClassBeside U w c c') {o o' : Value} (ho : ValueBeside U w o o')
    (n : String) (fault : RuntimeFault) (line : Nat) :
    Together U p q w env env'
      (match c.find? n with
        | some k => k.bindTo o >>= newFunction
        | none => fail fault line)
      (match c'.find? n with
        | some k => k.bindTo o' >>= newFunction
        | none => fail fault line) (ValueBeside U) := by
  rcases c.find? n, c'.find? n, hc.find? n with ⟨_, _, hk⟩
  cases hk with
  | none => exact .fail _ _
  | some hk => exact bindMethod_together hk ho

theorem Value.property_together {o o' : Value} (ho : ValueBeside U w o o') (t : Lexeme) :
    Together U p q w env env' (o.property t) (o'.property t) (ValueBeside U) := by
  have hall := ho
  cases ho with
  | @instance_ j c c' h =>
      refine .get fun m m' hm _ _ => ?_
      rcases m.heap.field? j t.text, m'.heap.field? j t.text, hm.heap.field? j t.text with ⟨_, _, hf⟩
      cases hf with
      | some hf => exact .pure hf
      | none => exact findMethod_together h hall t.text _ _
  | _ => exact .fail _ _

theorem superMethod_together {u u' o o' : Value} (hu : ValueBeside U w u u') (ho : ValueBeside U w o o')
    (t : Lexeme) :
    Together U p q w env env' (superMethod u o t) (superMethod u' o' t) (ValueBeside U) := by
  have hall := ho
  cases hu with
  | cls h =>
      cases ho with
      | instance_ j _ => exact findMethod_together h hall t.text _ _
      | _ => exact .throw (.inconsistent rfl)
  | _ => exact .throw (.inconsistent rfl)

/-! ### Expressions -/

theorem eval_together_succ (hS : S.lookup = .byDistance) (hev : EvalsTogether U S G p q f)
    (hex : ExecsTogether U S G p q f) (hg : Supplied p q 0 f g) {e : Expr NodeId} (he : U.FitsAll Γ e.references)
    (ha : Aligned w Γ env env') :
    Together U p q w env env' (eval S (f + 1) e) (eval { S with fuel := G } (g + 1) e) (ValueBeside U) := by
  rw [eval_succ, eval_succ]
  cases e with
  | literal i v => exact .pure (.scalar (Value.scalar_ofLiteral v))
  | group i inner => exact hev (e := inner) hg.lend he ha
  | unary i op t inner =>
      refine .bind (hev (e := inner) hg.lend he ha) fun w₁ _ v v' hv => ?_
      exact computes_together (op.apply_alike hv.resembles _ _)
  | binary i op t left right =>
      refine .bind (hev hg.lend he.left ha) fun w₁ hw₁ u u' hu => ?_
      refine .bind (hev hg.lend he.right (ha.mono hw₁)) fun w₂ hw₂ v v' hv => ?_
      have hu := hu.mono (.refl U) hw₂
      exact computes_together (op.apply_alike hu.resembles hv.resembles (hu.equals hv) _ _)
  | logical i op t left right =>
      refine .bind (hev hg.lend he.left ha) fun w₁ hw₁ v v' hv => ?_
      rw [op.settledBy_resembling hv.resembles]
      split
      · exact .pure hv
      · exact hev hg.lend he.right (ha.mono hw₁)
  | name r =>
      simp only [Expr.evalWith, hS]
      exact .read ha (he (.read, r) List.mem_cons_self)
  | assign r value =>
      refine .bind (hev hg.lend he.left ha) fun w₁ hw₁ v v' hv => ?_
      simp only [hS]
      refine .bind (.write (ha.mono hw₁) (he.right (.write, r) List.mem_cons_self) hv) fun w₂ hw₂ _ _ _ => ?_
      exact .pure (hv.mono (.refl U) hw₂)
  | call i callee t arguments =>
      refine .bind (hev hg.lend he.left ha) fun w₁ hw₁ u u' hu => ?_
      refine .bind (evalEach_together hev hg he.right (ha.mono hw₁)) fun w₂ hw₂ vs vs' hvs => ?_
      exact Value.call_together hex hg (hu.mono (.refl U) hw₂) t.line hvs
  | get i object t =>
      refine .bind (hev (e := object) hg.lend he ha) fun w₁ _ o o' ho => ?_
      exact Value.property_together ho t
  | set i object t value =>
      refine .bind (hev hg.lend he.right ha) fun w₁ hw₁ o o' ho => ?_
      cases ho with
      | instance_ j h =>
          refine .bind (hev hg.lend he.left (ha.mono hw₁)) fun w₂ hw₂ v v' hv => ?_
          refine .bind (.setField j t.text hv) fun w₃ hw₃ _ _ _ => ?_
          exact .pure (hv.mono (.refl U) hw₃)
      | _ => exact .fail _ _
  | this r =>
      simp only [Expr.evalWith, hS]
      exact .read ha (he (.this, r) List.mem_cons_self)
  | super r t =>
      simp only [Expr.evalWith, hS]
      refine .bind (.readSuper ha (he (.super, r) List.mem_cons_self) t) ?_
      rintro w₁ - ⟨u, o⟩ ⟨u', o'⟩ ⟨hu, ho⟩
      exact superMethod_together hu ho t

/-! ### Statements -/

theorem repeatWhile_together {c c' : Action Value} {body body' : Action Unit}
    (hc : ∀ {w : Partners}, Aligned w Γ env env' → Together U p q w env env' c c' (ValueBeside U))
    (hb : ∀ {w : Partners}, Aligned w Γ env env' →
      Together U p q w env env' body body' (fun _ _ _ => True)) (limit : Nat) :
    ∀ {limit' : Nat}, (p ∨ limit' ≤ limit) ∧ (q ∨ limit ≤ limit') → ∀ {w : Partners}, Aligned w Γ env env' →
      Together U p q w env env' (repeatWhile c body limit) (repeatWhile c' body' limit') (fun _ _ _ => True) := by
  induction limit with
  | zero =>
      rintro limit' ⟨hp, -⟩ w -
      rcases hp with hp | hp
      · exact fun m m' _ _ _ => .left hp m _
      · rw [Nat.le_zero.mp hp]
        exact .throw .exhausted
  | succ limit ih =>
      rintro limit' ⟨hp, hq⟩ w ha
      cases limit' with
      | zero =>
          rcases hq with hq | hq
          · exact fun m m' _ _ _ => .right hq _ m'
          · exact absurd hq (Nat.not_succ_le_zero _)
      | succ limit' =>
          refine .bind (hc ha) fun w₁ hw₁ v v' hv => ?_
          rw [hv.truthy]
          split
          · refine .bind (hb (ha.mono hw₁)) fun w₂ hw₂ _ _ _ => ?_
            exact ih ⟨hp.imp_right Nat.le_of_succ_le_succ, hq.imp_right Nat.le_of_succ_le_succ⟩
              (ha.mono (hw₁.trans hw₂))
          · exact .pure trivial

theorem evalOptional_together (hev : EvalsTogether U S G p q f) (hg : Supplied p q 0 f g)
    {e : Option (Expr NodeId)} (he : ∀ x ∈ e, U.FitsAll Γ x.references) (ha : Aligned w Γ env env') :
    Together U p q w env env' (evalOptional (eval S f) e) (evalOptional (eval { S with fuel := G } g) e)
      (ValueBeside U) := by
  cases e with
  | none => exact .pure .nil
  | some e => exact hev hg.lend (he e rfl) ha

/-- The methods of a class statement, made in the scope chain of its class. -/
theorem methodTable_beside (ha : Aligned w Γ env env') {ms ms' : List (FunDecl NodeId)}
    (h : BracedFuns U (.shared :: Γ) ms ms') :
    List.Forall₂ (fun p p' => p'.1 = p.1 ∧ MethodBeside U w p.2 p'.2) (methodTable ms env)
      (methodTable ms' env') := by
  unfold methodTable
  refine List.rel_reverse ?_
  induction ms generalizing ms' with
  | nil =>
      cases h
      exact .nil
  | cons d ms ih =>
      cases h with
      | @cons _ _ d' _ _ h hs =>
          refine .cons ⟨congrArg Lexeme.text h.name_eq, ?_, Γ, ha, h⟩ (ih hs)
          simp only [h.name_eq]

/-- The end of a class statement: the class is made from its methods and bound to its name. -/
theorem bindClass_together {Γm : Layers} (ho : Γ.Open) (ha : Aligned w Γ env env') (t : Lexeme)
    {parents parents' : List ClassBody} (hp : List.Forall₂ (BodyBeside U w) parents parents') {outer outer' : Env}
    (hm : Aligned w Γm outer outer') {ms ms' : List (FunDecl NodeId)} (h : BracedFuns U (.shared :: Γm) ms ms') :
    Together U p q w env env'
      (do
        let id ← updateHeap Heap.newId
        Action.define t.text (.cls ⟨⟨id, t.text, methodTable ms outer⟩, parents⟩))
      (do
        let id ← updateHeap Heap.newId
        Action.define t.text (.cls ⟨⟨id, t.text, methodTable ms' outer'⟩, parents'⟩))
      (fun _ _ _ => True) := by
  refine .bind .newId fun w₁ hw₁ i i' hi => ?_
  subst hi
  refine .define ho (ha.mono hw₁) t.text (.cls ⟨⟨rfl, rfl, ?_⟩, ?_⟩)
  · exact methodTable_beside (hm.mono hw₁) h
  · exact hp.imp fun _ _ hb => hb.mono (.refl U) hw₁

theorem readSuperclass_together (hS : S.lookup = .byDistance) (ha : Aligned w Γ env env') {r : Reference NodeId}
    (hr : U.Fits Γ (.read, r)) :
    Together U p q w env env' (readSuperclass S r) (readSuperclass { S with fuel := G } r) (ClassBeside U) := by
  unfold readSuperclass
  simp only [hS]
  refine .bind (.read ha hr) fun w₁ _ v v' hv => ?_
  cases hv with
  | cls h => exact .pure h
  | _ => exact .fail _ _

/-- Statements without braces of their own. -/
theorem exec_together_succ (hS : S.lookup = .byDistance) (hev : EvalsTogether U S G p q f)
    (hex : ExecsTogether U S G p q f) (hg : Supplied p q 0 f g) {s s' : Stmt NodeId} (h : BracedNode U Γ s s')
    (ha : Aligned w Γ env env') :
    Together U p q w env env' (exec S (f + 1) s) (exec { S with fuel := G } (g + 1) s')
      (fun _ _ _ => True) := by
  rw [exec_succ, exec_succ]
  cases h with
  | expression he => exact .bind (hev hg.lend he ha) fun _ _ _ _ _ => .pure trivial
  | print he => exact .bind (hev hg.lend he ha) fun _ _ _ _ hv => .printLine hv
  | @var _ t e ho he =>
      refine .bind (evalOptional_together hev hg he ha) fun w₁ hw₁ v v' hv => ?_
      exact .define ho (ha.mono hw₁) t.text hv
  | block hb =>
      refine .get fun m m' _ hm hm' => ?_
      rw [hm, hm']
      refine .bind (.nest ha .nil) fun w₁ _ inner inner' hin => ?_
      exact .within (runAll_together hex hg hb hin)
  | ite hc hy =>
      refine .bind (hev hg.lend hc ha) fun w₁ hw₁ v v' hv => ?_
      rw [hv.truthy]
      split
      · exact hex hg hy (ha.mono hw₁)
      · exact .pure trivial
  | iteElse hc hy hn =>
      refine .bind (hev hg.lend hc ha) fun w₁ hw₁ v v' hv => ?_
      rw [hv.truthy]
      split
      · exact hex hg hy (ha.mono hw₁)
      · exact hex hg hn (ha.mono hw₁)
  | «while» hc hb =>
      exact repeatWhile_together (fun ha => hev hg.lend hc ha) (fun ha => hex hg hb ha) f hg.limit ha
  | @function _ d d' ho hd =>
      refine .get fun m m' _ hm hm' => ?_
      rw [hm, hm', hd.name_eq]
      refine .bind (.newFunction ⟨rfl, Γ, ha, hd, nofun⟩) fun w₁ hw₁ v v' hv => ?_
      exact .define ho (ha.mono hw₁) _ hv
  | ret t he => exact .bind (evalOptional_together hev hg he ha) fun _ _ _ _ hv => .throw (.returned hv)
  | @base _ t _ _ ho hm =>
      simp only [Stmt.execWith, defineClass_eq]
      refine .bind (Q := fun _ c c' => c = none ∧ c' = none) (.pure ⟨rfl, rfl⟩) ?_
      rintro w₁ hw₁ _ _ ⟨rfl, rfl⟩
      refine .bind (.define ho (ha.mono hw₁) t.text .nil) fun w₂ hw₂ _ _ _ => ?_
      refine .get fun m m' _ he he' => ?_
      rw [he, he']
      have ha₂ := ha.mono (hw₁.trans hw₂)
      exact bindClass_together ho ha₂ t .nil ha₂ hm
  | @derived _ t r _ _ ho hr hm =>
      simp only [Stmt.execWith, defineClass_eq]
      refine .bind (Q := fun w₁ c c' => ∃ k k', c = some k ∧ c' = some k' ∧ ClassBeside U w₁ k k') ?_ ?_
      · refine .bind (readSuperclass_together hS ha hr) fun w₁ _ k k' hk => ?_
        exact .pure ⟨k, k', rfl, rfl, hk⟩
      rintro w₁ hw₁ _ _ ⟨k, k', rfl, rfl, hk⟩
      refine .bind (.define ho (ha.mono hw₁) t.text .nil) fun w₂ hw₂ _ _ _ => ?_
      refine .get fun m m' _ he he' => ?_
      rw [he, he']
      have ha₂ := ha.mono (hw₁.trans hw₂)
      have hk₂ : ClassBeside U w₂ k k' := hk.mono (.refl U) hw₂
      refine .bind (.nest ha₂ (.cons ⟨rfl, .cls hk₂⟩ .nil)) fun w₃ hw₃ inner inner' hin => ?_
      exact bindClass_together ho (ha₂.mono hw₃) t (hk₂.mono (.refl U) hw₃).bodies hin hm

/-! ### The knot -/

theorem runAll_singleton (exec : Stmt NodeId → Action Unit) (s : Stmt NodeId) : runAll exec [s] = exec s := by
  simp [runAll]

/-- Nodes without fuel, in one run or in both. -/
theorem together_empty {α α' : Type} {Q : Partners → α → α' → Prop} {act : Action α} {act' : Action α'}
    (hg : Supplied p q 1 f g) (hf : f = 0 → act = throw .exhausted) (hg' : g = 0 → act' = throw .exhausted)
    (h : ∀ f' g', f = f' + 1 → g = g' + 1 → Together U p q w env env' act act' Q) :
    Together U p q w env env' act act' Q := by
  match f, g, hf, hg', h with
  | 0, g, hf, hg', _ =>
      rw [hf rfl]
      rcases hg.left with hp | hle
      · exact fun m m' _ _ _ => .left hp m _
      · rw [hg' (Nat.le_zero.mp hle)]
        exact .throw .exhausted
  | f + 1, 0, _, hg', _ =>
      rw [hg' rfl]
      rcases hg.right with hq | hle
      · exact fun m m' _ _ _ => .right hq _ m'
      · omega
  | f + 1, g + 1, _, _, h => exact h f g rfl rfl

/-- A statement goes together with the same statement with braces, when its nodes do. -/
theorem exec_braced_together
    (hn : ∀ {g}, Supplied p q 1 f g → ∀ {Γ s s'}, BracedNode U Γ s s' → ∀ {w env env'}, Aligned w Γ env env' →
      Together U p q w env env' (exec S f s) (exec { S with fuel := G } g s') (fun _ _ _ => True)) :
    ExecsTogether U S G p q f := by
  intro g hg Γ s s' h w env env' ha
  cases h with
  | same h => exact hn hg.lend h ha
  | @braced _ _ s' h =>
      cases g with
      | zero =>
          refine together_empty hg.lend (fun hf => ?_) (fun _ => rfl) (fun _ _ _ hg => nomatch hg)
          rw [hf]
          rfl
      | succ g =>
          rw [exec_succ]
          refine .inExtra fun f' => ?_
          rw [runAll_singleton]
          exact hn hg.inExtra h (.extra f' ha)

/-- Programs that are the same but for braces go together, with any amount of fuel. -/
theorem alongside (hS : S.lookup = .byDistance) :
    ∀ f, EvalsTogether U S G p q f ∧ ExecsTogether U S G p q f
  | 0 => by
      refine ⟨fun hg _ _ _ _ _ _ _ => ?_, exec_braced_together fun hg _ _ _ _ _ _ _ _ => ?_⟩
      all_goals
        refine together_empty hg (fun _ => rfl) (fun hg => ?_) (fun _ _ hf => nomatch hf)
        rw [hg]
        rfl
  | f + 1 => by
      obtain ⟨hev, hex⟩ := alongside hS f
      refine ⟨fun hg _ _ he _ _ _ ha => ?_, exec_braced_together fun hg _ _ _ h _ _ _ ha => ?_⟩
      · refine together_empty hg (fun hf => nomatch hf) (fun hg => ?_) fun f' g' hf hg' => ?_
        · rw [hg]
          rfl
        · obtain rfl := Nat.succ.inj hf
          subst hg'
          exact eval_together_succ hS hev hex hg.inside he ha
      · refine together_empty hg (fun hf => nomatch hf) (fun hg => ?_) fun f' g' hf hg' => ?_
        · rw [hg]
          rfl
        · obtain rfl := Nat.succ.inj hf
          subst hg'
          exact exec_together_succ hS hev hex hg.inside h ha

end evaluation

end Lox
