import Lox.Proofs.Lockstep

/-! # Evaluation in step

Trees that match run in step, whatever their links are, when the links are sound: linked reads,
assignments and uses of `super` end alike (`Links.Sound`).  This is `eval_lockstep` and `exec_lockstep`,
by induction on the fuel; the cases follow the definitions of evaluation, one lemma for each. -/

namespace Lox

open World Lox.Action

variable (U : Links) (S : Settings) (look : Lookup) (T T' : Std.HashMap NodeId Nat)

/-- Linked uses of names end alike, by distance on the left and in a given way on the right.  Only an
early assignment may find its name not bound. -/
structure Links.Sound : Prop where
  read : ∀ {Γ p r r'}, U.read Γ p r r' → ∀ {w env b}, w.Chain Γ env →
    Lockstep U S T T' w env b (Action.read S.lookup r) (Action.read look r') (ValueMatch U)
  readSite : ∀ {Γ p r r'}, U.read Γ p r r' → U.site r.id r.name.line r'.id r'.name.line
  write : ∀ {Γ p r r'}, U.write Γ p r r' → ∀ {w env b v v'}, w.Chain Γ env → ValueMatch U w v v' →
    Lockstep U S T T' w env b (Action.write S.lookup r v) (Action.write look r' v') (fun _ _ _ => True)
  super : ∀ {Γ r r'}, U.super Γ r r' → ∀ {w env b}, w.Chain Γ env → ∀ t t',
    Lockstep U S T T' w env b (readSuper S.lookup r t) (readSuper look r' t') (fun w₁ p p' =>
      (∃ c, p.1 = .cls c) ∧ (∃ i c, p.2 = .instance_ i c) ∧ ValueMatch U w₁ p.1 p'.1 ∧
        ValueMatch U w₁ p.2 p'.2)

/-- The expressions that match run in step with this much fuel. -/
def EvalsInStep (fuel : Nat) : Prop :=
  ∀ {Γ p e e'}, MatchExpr U Γ p e e' → ∀ {w env b}, w.Chain Γ env →
    Lockstep U S T T' w env b (eval S fuel e) (eval { S with lookup := look } fuel e') (ValueMatch U)

/-- The statements that match run in step with this much fuel. -/
def ExecsInStep (fuel : Nat) : Prop :=
  ∀ {b Γ s s' Γ'}, MatchStmt U b Γ s s' Γ' → ∀ {w env}, w.Chain Γ env →
    Lockstep U S T T' w env b (exec S fuel s) (exec { S with lookup := look } fuel s')
      (fun w₁ _ _ => w₁.Chain Γ' env)

variable {U S look T T'} {w : World} {env : Env} {b : Bool} {fuel : Nat}

/-! ### Operators -/

/-- Operators do the same in both runs. -/
theorem computes_lockstep {i i' : NodeId} {l l' : Nat} (hl : U.site i l i' l') {act act' : Action Value}
    (h : Action.ComputeAlike l l' act act') : Lockstep U S T T' w env b act act' (ValueMatch U) := by
  cases h with
  | value hv => exact .pure (.scalar hv)
  | fault fault => exact .fail fault hl

/-! ### Lists of statements and of expressions -/

theorem runAll_lockstep (hex : ExecsInStep U S look T T' fuel) {Γ Γ' : Levels} :
    ∀ {ss ss' : List (Stmt NodeId)}, MatchStmts U b Γ ss ss' Γ' → ∀ {w : World}, w.Chain Γ env →
      Lockstep U S T T' w env b (runAll (exec S fuel) ss)
        (runAll (exec { S with lookup := look } fuel) ss') (fun w₁ _ _ => w₁.Chain Γ' env) := by
  intro ss
  induction ss generalizing Γ with
  | nil =>
      rintro ss' ⟨⟩ w hc
      exact .pure hc
  | cons s ss ih =>
      intro ss' h w hc
      cases h with
      | cons h hs => exact .bind (hex h hc) fun w₁ _ _ _ hc₁ => ih hs hc₁

theorem evalEach_lockstep (hev : EvalsInStep U S look T T' fuel) {Γ : Levels} {p : Option String} :
    ∀ {es es' : List (Expr NodeId)}, MatchEach U Γ p es es' → ∀ {w : World}, w.Chain Γ env →
      Lockstep U S T T' w env b (evalEach (eval S fuel) es)
        (evalEach (eval { S with lookup := look } fuel) es')
        (fun w₁ => List.Forall₂ (ValueMatch U w₁)) := by
  intro es
  induction es with
  | nil =>
      rintro es' ⟨⟩ w -
      exact .pure .nil
  | cons e es ih =>
      intro es' h w hc
      cases h with
      | cons h hs =>
          refine .bind (hev h hc) fun w₁ hw₁ v v' hv => ?_
          refine .bind (ih hs (hc.mono hw₁)) fun w₂ hw₂ vs vs' hvs => ?_
          exact .pure (.cons (hv.mono hw₂) hvs)

/-! ### Calls -/

/-- Binding parameters to arguments one after the other. -/
theorem bindParams_match {declared : List String} {twin : String → String}
    (hp : U.Allows declared twin) :
    ∀ {params params' : List Lexeme} {vs vs' : List Value} {s s' : Slots},
      (∀ p ∈ params, p.text ∈ declared) →
      params'.map Lexeme.text = params.map (fun p => twin p.text) →
      List.Forall₂ (ValueMatch U w) vs vs' → SlotsMatch U w (.names declared twin) s s' →
      SlotsMatch U w (.names declared twin)
        ((params.zip vs).foldl (fun slots (param, value) => slots.define param.text value) s)
        ((params'.zip vs').foldl (fun slots (param, value) => slots.define param.text value) s')
  | [], [], _, _, _, _, _, _, _, hs => by simpa using hs
  | [], _ :: _, _, _, _, _, _, ht, _, _ => by simp at ht
  | _ :: _, [], _, _, _, _, _, ht, _, _ => by simp at ht
  | _ :: _, _ :: _, _, _, _, _, _, _, .nil, hs => by simpa using hs
  | p :: ps, p' :: ps', _, _, s, s', hd, ht, .cons (a := v) (b := v') hv hvs, hs => by
      simp only [List.map_cons, List.cons.injEq] at ht
      simp only [List.zip_cons_cons, List.foldl_cons, ht.1]
      refine bindParams_match hp (fun q hq => hd q (List.mem_cons_of_mem _ hq)) ht.2 hvs ?_
      exact hs.define hp (hd p List.mem_cons_self) trivial hv

theorem bindParams_binds {n : String} :
    ∀ (params : List Lexeme) (vs : List Value) (s : Slots), vs.length = params.length →
      (n ∈ params.map Lexeme.text ∨ s.binds n = true) →
      Slots.binds ((params.zip vs).foldl (fun slots (param, value) => slots.define param.text value) s)
        n = true
  | [], _, _, _, h => by simpa using h
  | p :: ps, [], _, hl, _ => by simp at hl
  | p :: ps, v :: vs, s, hl, h => by
      simp only [List.zip_cons_cons, List.foldl_cons]
      refine bindParams_binds ps vs _ (by simpa using hl) ?_
      by_cases hn : n = p.text
      · right
        simp [hn, Slots.binds, Slots.lookup_define_self]
      · rcases h with h | h
        · left
          simpa [hn] using h
        · right
          rwa [Slots.binds, Slots.lookup_define_of_ne _ _ hn]

theorem Closure.invoke_lockstep (hex : ExecsInStep U S look T T' fuel) {c c' : Closure}
    (hc : ClosureMatch U w c c') {vs vs' : List Value} (hvs : List.Forall₂ (ValueMatch U w) vs vs')
    (hl : vs.length = c.arity) :
    Lockstep U S T T' w env b (c.invoke (exec S fuel) vs)
      (c'.invoke (exec { S with lookup := look } fuel) vs') (ValueMatch U) := by
  obtain ⟨decl, closed, initializer⟩ := c
  obtain ⟨decl', closed', initializer'⟩ := c'
  obtain ⟨he, hi, Γ, hch, hm, ht⟩ := hc
  dsimp only at he hi hch hm ht
  subst he hi
  cases hm with
  | @mk _ _ declared twin _ _ params params' body body' hn hu hp hd htw hbody =>
      have hslots : SlotsMatch U w (.names declared twin) (bindParams params vs)
          (bindParams params' vs') := bindParams_match hp hd htw hvs .nil
      have hready : ∀ n ∈ params.map Lexeme.text, (bindParams params vs).binds n = true :=
        fun n hn => bindParams_binds params vs [] hl (.inl hn)
      refine .bind (Lockstep.nest (l := ⟨.names declared twin, params.map Lexeme.text⟩) hch hp hslots
        hready) ?_
      rintro w₁ hw₁ inner _ ⟨rfl, hinner⟩
      refine .bind (Lockstep.returning (Lockstep.within (runAll_lockstep hex hbody hinner))) ?_
      intro w₂ hw₂ v v' hv
      cases hb : initializer' with
      | false => exact .pure hv
      | true =>
          refine .get fun m m' hs _ => ?_
          obtain ⟨Γ', rfl⟩ := ht hb
          obtain ⟨u, u', hu, hu', -, huv⟩ :=
            (hch.mono (hw₁.trans hw₂)).getAt hs.good (d := 0) rfl (List.mem_singleton.mpr rfl)
          rw [hs.left, hs.right, hu]
          change Lockstep U S T T' w₂ env b (pure u) (sound (w₂.right.getAt closed' 0 "this")) _
          rw [show w₂.right.getAt closed' 0 "this" = .ok u' from hu']
          exact .pure huv

theorem Closure.bindTo_lockstep {c c' : Closure} (hc : MethodMatch U w c c') {o o' : Value}
    (ho : ValueMatch U w o o') (hi : ∃ i k, o = .instance_ i k) :
    Lockstep U S T T' w env b (c.bindTo o) (c'.bindTo o')
      (fun w₁ f f' => ClosureMatch U w₁ f f' ∧ f.decl = c.decl) := by
  obtain ⟨he, hin, Γ, hch, hm⟩ := hc
  unfold Closure.bindTo
  rw [he]
  have hs : SlotsMatch U w Role.this [("this", o)] [("this", o')] := .cons ⟨rfl, hi, rfl, ho⟩ .nil
  have hb : ∀ n ∈ Level.this.ready, Slots.binds [("this", o)] n = true := by
    intro n hn
    simp [List.mem_singleton.mp hn, Slots.binds]
  refine .bind (Lockstep.nest (l := .this) hch trivial hs hb) ?_
  rintro w₁ hw₁ inner _ ⟨rfl, hinner⟩
  exact .pure ⟨⟨rfl, hin, _, hinner, hm, fun _ => ⟨Γ, rfl⟩⟩, rfl⟩

theorem Class.construct_lockstep (hex : ExecsInStep U S look T T' fuel) {c c' : Class}
    (hc : ClassMatch U w c c') {vs vs' : List Value} (hvs : List.Forall₂ (ValueMatch U w) vs vs')
    (hl : vs.length = c.arity) :
    Lockstep U S T T' w env b (c.construct (exec S fuel) vs)
      (c'.construct (exec { S with lookup := look } fuel) vs') (ValueMatch U) := by
  unfold Class.construct
  refine .bind .newInstance ?_
  intro w₁ hw₁ i i' hi
  subst hi
  have ho : ValueMatch U w₁ (.instance_ i' c) (.instance_ i' c') := .instance_ i' (hc.mono hw₁)
  have hf := hc.find? initializerName
  unfold Class.arity at hl
  cases hc₁ : c.find? initializerName with
  | none =>
      rw [hc₁] at hf
      rw [hf.eq_none]
      exact .pure ho
  | some f =>
      rw [hc₁] at hf hl
      obtain ⟨f', hf', hf⟩ := hf.exists_some
      rw [hf']
      refine .bind (Closure.bindTo_lockstep (hf.mono hw₁) ho ⟨i', c, rfl⟩) ?_
      rintro w₂ hw₂ g g' ⟨hg, hd⟩
      have hlg : vs.length = g.arity := by
        rw [Closure.arity, hd]
        exact hl
      have hvs' := hvs.imp fun _ _ h => h.mono (hw₁.trans hw₂)
      refine .bind (Closure.invoke_lockstep hex hg hvs' hlg) fun w₃ hw₃ _ _ _ => ?_
      exact .pure (ho.mono (hw₂.trans hw₃))

/-- The checks before a call, and the call. -/
theorem call_lockstep {f f' : Value} (k k' : Callable) (hf : f.callable? = some k)
    (hf' : f'.callable? = some k') (ha : k'.arity = k.arity) {vs vs' : List Value}
    (hvs : vs'.length = vs.length) {i i' : NodeId} {l l' : Nat} (hl : U.site i l i' l')
    {ex ex' : Stmt NodeId → Action Unit}
    (h : vs.length = k.arity → Lockstep U S T T' w env b (k.call S ex vs)
      (k'.call { S with lookup := look } ex' vs') (ValueMatch U)) :
    Lockstep U S T T' w env b (f.call S ex l vs) (f'.call { S with lookup := look } ex' l' vs')
      (ValueMatch U) := by
  unfold Value.call
  rw [hf, hf', hvs]
  dsimp only
  rw [ha]
  by_cases hn : vs.length = k.arity
  · rw [if_neg (not_not.mpr hn), if_neg (not_not.mpr hn)]
    refine .get fun m m' hm _ => ?_
    rw [hm.depth]
    split
    · exact .fail _ hl
    · exact .deeper (h hn)
  · rw [if_pos hn, if_pos hn]
    exact .fail _ hl

theorem Value.call_lockstep (hex : ExecsInStep U S look T T' fuel) {f f' : Value}
    (hf : ValueMatch U w f f') {vs vs' : List Value} (hvs : List.Forall₂ (ValueMatch U w) vs vs')
    {i i' : NodeId} {l l' : Nat} (hl : U.site i l i' l') :
    Lockstep U S T T' w env b (f.call S (exec S fuel) l vs)
      (f'.call { S with lookup := look } (exec { S with lookup := look } fuel) l' vs')
      (ValueMatch U) := by
  have hlen := hvs.length_eq.symm
  cases hf with
  | clock => exact Lox.call_lockstep .clock .clock rfl rfl rfl hlen hl fun _ => .readClock S.clock
  | @function i c c' h =>
      have hc := h
      obtain ⟨-, -, Γ, -, hm, -⟩ := hc
      exact Lox.call_lockstep (.function c) (.function c') rfl rfl hm.params_length hlen hl fun hn =>
        Closure.invoke_lockstep hex h hvs hn
  | @cls c c' h =>
      exact Lox.call_lockstep (.cls c) (.cls c') rfl rfl h.arity hlen hl fun hn =>
        Class.construct_lockstep hex h hvs hn
  | _ => exact .fail _ hl

/-! ### Properties -/

/-- A method bound to an instance, as a value of its own. -/
theorem bindMethod_lockstep {c c' : Closure} (hc : MethodMatch U w c c') {o o' : Value}
    (ho : ValueMatch U w o o') (hi : ∃ i k, o = .instance_ i k) :
    Lockstep U S T T' w env b (c.bindTo o >>= newFunction) (c'.bindTo o' >>= newFunction)
      (ValueMatch U) := by
  refine .bind (Closure.bindTo_lockstep hc ho hi) ?_
  rintro w₁ - f f' ⟨hf, -⟩
  refine Lockstep.imp (.newFunction f f') ?_
  rintro w₂ hw₂ _ _ ⟨i, rfl, rfl⟩
  exact .function i (hf.mono hw₂)

theorem Value.property_lockstep {o o' : Value} (ho : ValueMatch U w o o') {t t' : Lexeme}
    (hn : t'.text = t.text) {i i' : NodeId} (hl : U.site i t.line i' t'.line) :
    Lockstep U S T T' w env b (o.property t) (o'.property t') (ValueMatch U) := by
  have hall := ho
  cases ho with
  | @instance_ j c c' h =>
      refine .get fun m m' hm _ => ?_
      have hf := hm.good.field? j t.text
      rw [hm.left, hm.right, hn]
      cases hv : w.left.field? j t.text with
      | some v =>
          rw [hv] at hf
          obtain ⟨v', hv', hf⟩ := hf.exists_some
          rw [hv']
          exact .pure hf
      | none =>
          rw [hv] at hf
          rw [hf.eq_none]
          have hk := h.find? t.text
          dsimp only
          cases hc : c.find? t.text with
          | none =>
              rw [hc] at hk
              rw [hk.eq_none]
              exact .fail _ hl
          | some k =>
              rw [hc] at hk
              obtain ⟨k', hk', hk⟩ := hk.exists_some
              rw [hk']
              exact bindMethod_lockstep hk hall ⟨j, c, rfl⟩
  | _ => exact .fail _ hl

theorem superMethod_lockstep {u u' o o' : Value} (hu : ValueMatch U w u u') (ho : ValueMatch U w o o')
    (hk : ∃ c, u = .cls c) (hi : ∃ i c, o = .instance_ i c) {t t' : Lexeme} (hn : t'.text = t.text)
    {i i' : NodeId} (hl : U.site i t.line i' t'.line) :
    Lockstep U S T T' w env b (superMethod u o t) (superMethod u' o' t') (ValueMatch U) := by
  obtain ⟨c, rfl⟩ := hk
  have hi' := hi
  obtain ⟨j, k, rfl⟩ := hi
  have ho' := ho
  cases hu with
  | @cls _ c' h =>
      cases ho with
      | @instance_ _ _ k' _ =>
          unfold superMethod
          dsimp only
          rw [hn]
          have hf := h.find? t.text
          cases hc : c.find? t.text with
          | none =>
              rw [hc] at hf
              rw [hf.eq_none]
              exact .fail _ hl
          | some f =>
              rw [hc] at hf
              obtain ⟨f', hf', hf⟩ := hf.exists_some
              rw [hf']
              exact bindMethod_lockstep hf ho' hi'

/-! ### Expressions -/

theorem eval_lockstep_succ (hU : U.Sound S look T T') (hev : EvalsInStep U S look T T' fuel)
    (hex : ExecsInStep U S look T T' fuel) : EvalsInStep U S look T T' (fuel + 1) := by
  intro Γ p e e' h w env b hc
  rw [eval_succ, eval_succ]
  cases h with
  | literal i i' v => exact .pure (.scalar (Value.scalar_ofLiteral v))
  | group i i' h => exact hev h hc
  | unary op ht h =>
      refine .bind (hev h hc) fun w₁ _ v v' hv => ?_
      exact computes_lockstep ht (op.apply_alike hv.resembles _ _)
  | binary op ht ha hb =>
      refine .bind (hev ha hc) fun w₁ hw₁ u u' hu => ?_
      refine .bind (hev hb (hc.mono hw₁)) fun w₂ hw₂ v v' hv => ?_
      have hu := hu.mono hw₂
      exact computes_lockstep ht (op.apply_alike hu.resembles hv.resembles (hu.equals hv) _ _)
  | logical i i' op t t' ha hb =>
      refine .bind (hev ha hc) fun w₁ hw₁ v v' hv => ?_
      rw [op.settledBy_resembling hv.resembles]
      split
      · exact .pure hv
      · exact hev hb (hc.mono hw₁)
  | name h => exact hU.read h hc
  | assign hr h =>
      refine .bind (hev h hc) fun w₁ hw₁ v v' hv => ?_
      refine .bind (hU.write hr (hc.mono hw₁) hv) fun w₂ hw₂ _ _ _ => ?_
      exact .pure (hv.mono hw₂)
  | call ht hf ha =>
      refine .bind (hev hf hc) fun w₁ hw₁ f f' hff => ?_
      refine .bind (evalEach_lockstep hev ha (hc.mono hw₁)) fun w₂ hw₂ vs vs' hvs => ?_
      exact Value.call_lockstep hex (hff.mono hw₂) hvs ht
  | get hn ht h =>
      refine .bind (hev h hc) fun w₁ _ o o' ho => ?_
      exact Value.property_lockstep ho hn ht
  | @set i i' t t' _ _ _ _ hn ht ha hb =>
      refine .bind (hev ha hc) fun w₁ hw₁ o o' ho => ?_
      cases ho with
      | instance_ j h =>
          refine .bind (hev hb (hc.mono hw₁)) fun w₂ hw₂ v v' hv => ?_
          rw [hn]
          refine .bind (.setField j t.text hv) fun w₃ hw₃ _ _ _ => ?_
          exact .pure (hv.mono hw₃)
      | _ => exact .fail _ ht
  | this h => exact hU.read h hc
  | super hn ht h =>
      refine .bind (hU.super h hc _ _) ?_
      rintro w₁ - ⟨u, o⟩ ⟨u', o'⟩ ⟨hk, hi, hu, ho⟩
      exact superMethod_lockstep hu ho hk hi hn ht

/-! ### Statements -/

theorem repeatWhile_lockstep {Γ : Levels} {c c' : Action Value} {body body' : Action Unit}
    (hc : ∀ {w : World}, w.Chain Γ env → Lockstep U S T T' w env b c c' (ValueMatch U))
    (hb : ∀ {w : World}, w.Chain Γ env →
      Lockstep U S T T' w env b body body' (fun w₁ _ _ => w₁.Chain Γ env)) (limit : Nat) :
    ∀ {w : World}, w.Chain Γ env → Lockstep U S T T' w env b (repeatWhile c body limit)
      (repeatWhile c' body' limit) (fun w₁ _ _ => w₁.Chain Γ env) := by
  induction limit with
  | zero =>
      intro w _
      exact .exhausted
  | succ limit ih =>
      intro w hw
      refine .bind (hc hw) fun w₁ hw₁ v v' hv => ?_
      rw [hv.truthy]
      split
      · exact .bind (hb (hw.mono hw₁)) fun w₂ _ _ _ hw₂ => ih hw₂
      · exact .pure (hw.mono hw₁)

theorem evalOptional_lockstep (hev : EvalsInStep U S look T T' fuel) {Γ : Levels} {p : Option String}
    {e e' : Option (Expr NodeId)} (h : MatchExpr? U Γ p e e') (hc : w.Chain Γ env) :
    Lockstep U S T T' w env b (evalOptional (eval S fuel) e)
      (evalOptional (eval { S with lookup := look } fuel) e') (ValueMatch U) := by
  cases h with
  | none => exact .pure .nil
  | some h => exact hev h hc

/-- The methods of a class statement, made in the scope chain of its class. -/
theorem methodTable_match {Γ : Levels} (hc : w.Chain Γ env) {ms ms' : List (FunDecl NodeId)}
    (h : MatchFuns U (.this :: Γ) ms ms') :
    List.Forall₂ (fun p p' => p'.1 = p.1 ∧ MethodMatch U w p.2 p'.2) (methodTable ms env)
      (methodTable ms' env) := by
  unfold methodTable
  refine List.rel_reverse ?_
  induction ms generalizing ms' with
  | nil =>
      cases h
      exact .nil
  | cons d ms ih =>
      cases h with
      | @cons _ _ d' _ _ h hs =>
          refine .cons ⟨h.name_text, rfl, ?_, Γ, hc, h⟩ (ih hs)
          simp only [h.name_text]

/-- The end of a class statement: the class is made from its methods and bound to its name. -/
theorem bindClass_lockstep {Γ Γ' Γm : Levels} {outer : Env} {t t' : Lexeme} (hn : t'.text = t.text)
    (hd : Γ.Declare t.text t'.text Γ') (hc : w.Chain Γ env) {parents parents' : List ClassBody}
    (hp : List.Forall₂ (BodyMatch U w) parents parents') (hm : w.Chain Γm outer)
    {ms ms' : List (FunDecl NodeId)} (h : MatchFuns U (.this :: Γm) ms ms') :
    Lockstep U S T T' w env b
      (do
        let id ← updateHeap Heap.newId
        Action.define t.text (.cls ⟨⟨id, t.text, methodTable ms outer⟩, parents⟩))
      (do
        let id ← updateHeap Heap.newId
        Action.define t'.text (.cls ⟨⟨id, t'.text, methodTable ms' outer⟩, parents'⟩))
      (fun w₁ _ _ => w₁.Chain Γ' env) := by
  refine .bind .newId fun w₁ hw₁ i i' hi => ?_
  subst hi
  refine .define hd (hc.mono hw₁) fun w₂ hw₂ _ => .cls ⟨⟨rfl, hn, ?_⟩, ?_⟩
  · exact methodTable_match (hm.mono (hw₁.trans hw₂)) h
  · exact hp.imp fun _ _ hb => hb.mono (hw₁.trans hw₂)

theorem readSuperclass_lockstep (hU : U.Sound S look T T') {Γ : Levels} {r r' : Reference NodeId}
    (hr : U.read Γ none r r') (hc : w.Chain Γ env) :
    Lockstep U S T T' w env b (readSuperclass S r) (readSuperclass { S with lookup := look } r')
      (ClassMatch U) := by
  refine .bind (hU.read hr hc) fun w₁ _ v v' hv => ?_
  cases hv with
  | cls h => exact .pure h
  | _ => exact .fail _ (hU.readSite hr)

theorem exec_lockstep_succ (hU : U.Sound S look T T') (hev : EvalsInStep U S look T T' fuel)
    (hex : ExecsInStep U S look T T' fuel) : ExecsInStep U S look T T' (fuel + 1) := by
  intro b Γ s s' Γ' h w env hc
  rw [exec_succ, exec_succ]
  cases h with
  | expression h => exact .bind (hev h hc) fun w₁ hw₁ _ _ _ => .pure (hc.mono hw₁)
  | print h =>
      refine .bind (hev h hc) fun w₁ hw₁ v v' hv => ?_
      exact .imp (.printLine hv) fun w₂ hw₂ _ _ _ => hc.mono (hw₁.trans hw₂)
  | var hd h =>
      refine .bind (evalOptional_lockstep hev h hc) fun w₁ hw₁ v v' hv => ?_
      exact .define hd (hc.mono hw₁) fun w₂ hw₂ _ => hv.mono hw₂
  | @block _ _ _ declared twin _ _ hp h =>
      refine .get fun m m' hm he => ?_
      rw [hm.env, he]
      refine .bind (Lockstep.nest (l := ⟨.names declared twin, []⟩) hc hp .nil (by simp)) ?_
      rintro w₁ hw₁ inner _ ⟨rfl, hi⟩
      exact .imp (.within (runAll_lockstep hex h hi)) fun w₂ hw₂ _ _ _ => hc.mono (hw₁.trans hw₂)
  | ite hb hy =>
      refine .bind (hev hb hc) fun w₁ hw₁ v v' hv => ?_
      rw [hv.truthy]
      split
      · exact hex hy (hc.mono hw₁)
      · exact .pure (hc.mono hw₁)
  | iteElse hb hy hn =>
      refine .bind (hev hb hc) fun w₁ hw₁ v v' hv => ?_
      rw [hv.truthy]
      split
      · exact hex hy (hc.mono hw₁)
      · exact hex hn (hc.mono hw₁)
  | «while» hb hs => exact repeatWhile_lockstep (fun hc => hev hb hc) (fun hc => hex hs hc) fuel hc
  | @function _ _ _ d d' hd h =>
      refine .get fun m m' hm he => ?_
      rw [hm.env, he]
      refine .bind (.newFunction _ _) ?_
      rintro w₁ hw₁ _ _ ⟨i, rfl, rfl⟩
      refine .define hd (hc.mono hw₁) fun w₂ hw₂ hc₂ => .function i ⟨rfl, rfl, _, hc₂, h, ?_⟩
      exact fun hf => nomatch hf
  | ret t t' h => exact .bind (evalOptional_lockstep hev h hc) fun w₁ _ v v' hv => .returned hv
  | base hn hd hm =>
      simp only [Stmt.execWith, defineClass_eq]
      refine .bind (Q := fun _ c c' => c = none ∧ c' = none) (.pure ⟨rfl, rfl⟩) ?_
      rintro w₁ hw₁ _ _ ⟨rfl, rfl⟩
      refine .bind (.define hd (hc.mono hw₁) fun w₂ _ _ => .nil) fun w₂ hw₂ _ _ hc₂ => ?_
      refine .get fun m m' hm' he => ?_
      rw [hm'.env, he]
      exact bindClass_lockstep hn hd (hc.mono (hw₁.trans hw₂)) .nil hc₂ hm
  | derived hn hd hr hm =>
      simp only [Stmt.execWith, defineClass_eq]
      refine .bind (Q := fun w₁ c c' => ∃ k k', c = some k ∧ c' = some k' ∧ ClassMatch U w₁ k k') ?_ ?_
      · refine .bind (readSuperclass_lockstep hU hr hc) fun w₁ _ k k' hk => ?_
        exact .pure ⟨k, k', rfl, rfl, hk⟩
      rintro w₁ hw₁ _ _ ⟨k, k', rfl, rfl, hk⟩
      refine .bind (.define hd (hc.mono hw₁) fun w₂ _ _ => .nil) fun w₂ hw₂ _ _ hc₂ => ?_
      refine .get fun m m' hm' he => ?_
      rw [hm'.env, he]
      have hs : SlotsMatch U w₂ Role.super [("super", .cls k)] [("super", .cls k')] :=
        .cons ⟨rfl, ⟨k, rfl⟩, rfl, .cls (hk.mono hw₂)⟩ .nil
      have hb : ∀ n ∈ Level.super.ready, Slots.binds [("super", Value.cls k)] n = true := by
        intro n hn
        simp [List.mem_singleton.mp hn, Slots.binds]
      refine .bind (Lockstep.nest (l := .super) hc₂ trivial hs hb) ?_
      rintro w₃ hw₃ inner _ ⟨rfl, hi⟩
      have hw := hw₂.trans hw₃
      exact bindClass_lockstep hn hd (hc.mono (hw₁.trans hw)) (hk.mono hw).bodies hi hm

/-! ### The knot -/

/-- Trees whose links are sound run in step, with any amount of fuel. -/
theorem lockstep (hU : U.Sound S look T T') :
    ∀ fuel, EvalsInStep U S look T T' fuel ∧ ExecsInStep U S look T T' fuel
  | 0 => ⟨fun _ _ _ _ _ => .exhausted, fun _ _ _ _ => .exhausted⟩
  | fuel + 1 =>
      have ih := lockstep hU fuel
      ⟨eval_lockstep_succ hU ih.1 ih.2, exec_lockstep_succ hU ih.1 ih.2⟩

/-- Statements at the top level that match run in step. -/
theorem runAll_top_lockstep (hU : U.Sound S look T T') {body body' : List (Stmt NodeId)} {Γ : Levels}
    (h : MatchStmts U false [] body body' Γ) (hc : w.Chain [] env) :
    Lockstep U S T T' w env false (runAll (exec S S.fuel) body)
      (runAll (exec { S with lookup := look } S.fuel) body') (fun _ _ _ => True) :=
  .imp (runAll_lockstep (lockstep hU S.fuel).2 h hc) fun _ _ _ _ _ => trivial

end Lox
