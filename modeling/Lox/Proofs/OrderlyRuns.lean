import Lox.Proofs.Receivers
import Lox.Proofs.Upholding

/-! # Orderly runs

Evaluation keeps recorders orderly, and all moments of it are, in any setting and however it ends
(`upholds_evaluation`).  A statement declares a name in the frame that was made for the scope it stands in, or among
the globals if it stands at the top level (`Stmt.Placed`); a branch or the body of a loop declares nothing.  So all
machines of a session are orderly (`Session.Orderly`). -/

namespace Lox

open Traced

variable {o : Outset} {r₀ : Recorder} {env : Env} {S : Settings}

/-! ### Where statements stand -/

/-- A statement that may be run in a chain: it stands at the top level, or in a scope that the innermost frame was
made for, if it declares a name at all. -/
def Stmt.Placed (o : Outset) (past : History) (env : Env) (s : Stmt NodeId) : Prop :=
  ∀ t, s.declared? = some t → (env = [globalFrame] ∧ s ∈ o.body) ∨
    ∃ k ∈ past, ∃ f names outer, k.Opens f names ∧ env = f :: outer ∧ t.text ∈ names

namespace Stmt.Placed

variable {past past' : History} {s : Stmt NodeId}

theorem mono (hp : past <:+ past') (h : s.Placed o past env) : s.Placed o past' env := by
  intro t ht
  rcases h t ht with htop | ⟨k, hk, rest⟩
  · exact .inl htop
  · exact .inr ⟨k, hp.subset hk, rest⟩

/-- A statement that declares nothing may stand anywhere. -/
theorem of_none (h : s.declared? = none) : s.Placed o past env := by
  intro t ht
  rw [h] at ht
  cases ht

/-- When a statement that is placed is run, the name that it declares may be declared. -/
theorem declarable (h : s.Placed o past env) {k : Moment} (hk : o.Reaches past k) (hwhat : k.what = .executes s)
    (hkenv : k.machine.env = env) {t : Lexeme} (ht : s.declared? = some t) : Declarable o past env t.text := by
  rcases h t ht with ⟨henv, hbody⟩ | hscope
  · exact .inl ⟨henv, .inr ⟨k, hk, hkenv.trans henv, s, hbody, hwhat, t, ht, rfl⟩⟩
  · exact .inr hscope

/-- The statements of a body are placed in the frame that is made for its scope. -/
theorem body {body : List (Stmt NodeId)} {k : Moment} (hk : k ∈ past) {names : List String} {outer : Env}
    (hscope : k.what.scope? = some names) (hnames : ∀ t ∈ Stmt.declarations body, t.text ∈ names) :
    ∀ s ∈ body, s.Placed o past (k.frame :: outer) :=
  fun s hs t ht => .inr ⟨k, hk, k.frame, names, outer, ⟨rfl, hscope⟩, rfl,
    hnames t (List.mem_filterMap.mpr ⟨s, hs, ht⟩)⟩

end Stmt.Placed

/-! ### Arguments -/

/-- What parameters are bound to: arguments. -/
theorem bindParams_lookup {params : List Lexeme} {values : List Value} {n : String} {v : Value}
    (h : (bindParams params values).lookup n = some v) : n ∈ params.map Lexeme.text ∧ v ∈ values := by
  have hstep : ∀ (pairs : List (Lexeme × Value)) (slots : Slots),
      (pairs.foldl (fun slots p => slots.define p.1.text p.2) slots).lookup n = some v →
      slots.lookup n = some v ∨ ∃ p ∈ pairs, p.1.text = n ∧ p.2 = v := by
    intro pairs
    induction pairs with
    | nil => exact fun _ h => .inl h
    | cons p pairs ih =>
      intro slots h
      rcases ih _ h with hold | ⟨q, hq, hp⟩
      · by_cases hn : n = p.1.text
        · rw [hn, Slots.lookup_define_self] at hold
          exact .inr ⟨p, List.mem_cons_self, hn.symm, Option.some.inj hold⟩
        · rw [Slots.lookup_define_of_ne _ _ hn] at hold
          exact .inl hold
      · exact .inr ⟨q, List.mem_cons_of_mem _ hq, hp⟩
  rcases hstep _ _ h with hnil | ⟨p, hp, hn, hv⟩
  · exact absurd hnil (by simp)
  · exact ⟨List.mem_map.mpr ⟨p.1, (List.of_mem_zip hp).1, hn⟩, hv ▸ (List.of_mem_zip hp).2⟩

/-! ### Evaluation -/

/-- Evaluation with given fuel keeps recorders orderly. -/
structure UpheldBy (o : Outset) (ev : Expr NodeId → Traced Value) (ex : Stmt NodeId → Traced Unit) :
    Prop where
  expr {r₀ : Recorder} {env : Env} {e : Expr NodeId} : e.Spelled → Upholds o r₀ env (ev e) Recorder.Has
  stmt {r₀ : Recorder} {env : Env} {s : Stmt NodeId} : s.Regular → s.Placed o r₀.past env →
    Upholds o r₀ env (ex s) fun _ _ => True

namespace UpheldBy

variable {ev : Expr NodeId → Traced Value} {ex : Stmt NodeId → Traced Unit} {α : Type} {post : Recorder → α → Prop}

theorem later {s s' : Recorder} {v : Value} (hb : s.Before s') (h : s.Has v) : s'.Has v := Value.Genuine.later hb h

theorem evalEach (hu : UpheldBy o ev ex) : ∀ (es : List (Expr NodeId)) {r₀ : Recorder},
    (∀ u ∈ Expr.referencesEach es, u.1.Spells u.2.name) →
    Upholds o r₀ env (Traced.evalEach ev es) fun s vs => ∀ v ∈ vs, s.Has v
  | [], _, _ => .pure fun _ _ => List.forall_mem_nil _
  | e :: es, _, h => by
    obtain ⟨he, hes⟩ := List.forall_mem_append.mp h
    refine (hu.expr he).bind fun _ v _ hv => (evalEach hu es hes).bind fun _ vs h₂ hvs => ?_
    exact .pure fun _ h₃ => List.forall_mem_cons.mpr ⟨later (h₂.trans h₃) hv, fun u hm => later h₃ (hvs u hm)⟩

theorem evalOptional (hu : UpheldBy o ev ex) {e : Option (Expr NodeId)} (h : ∀ v ∈ e, v.Spelled) :
    Upholds o r₀ env (Traced.evalOptional ev e) Recorder.Has := by
  cases e with
  | none => exact .pure fun _ _ => trivial
  | some e => exact hu.expr (h e rfl)

theorem runAll (hu : UpheldBy o ev ex) : ∀ (body : List (Stmt NodeId)) {r₀ : Recorder},
    (∀ s ∈ body, s.Regular) → (∀ s ∈ body, s.Placed o r₀.past env) →
    Upholds o r₀ env (Traced.runAll ex body) fun _ _ => True
  | [], _, _, _ => .pure fun _ _ => trivial
  | s :: body, _, hr, hp => by
    obtain ⟨hs, hbody⟩ := List.forall_mem_cons.mp hr
    obtain ⟨hps, hpbody⟩ := List.forall_mem_cons.mp hp
    exact (hu.stmt hs hps).bind fun _ _ h₁ _ => runAll hu body hbody fun s hs => (hpbody s hs).mono h₁.past

/-! #### Calls -/

/-- A function that is run.  If it is an initializer, it yields the instance that it is bound to. -/
theorem invoke_yields (hu : UpheldBy o ev ex) {f : Closure} (hf : f.decl.Regular) {values : List Value}
    (hv : ∀ v ∈ values, r₀.Has v) :
    Upholds o r₀ env (Traced.invoke ex f values) fun s v => s.Has v ∧
      (f.isInitializer = true → ∀ object, f.BoundTo s.past object → v = object) := by
  refine .opens f.decl.names rfl id (fun n hn => ?_) (fun n v hl => hv v (bindParams_lookup hl).2) trivial
    (fun _ _ => hf) fun r₁ k _ hk hwhat _ => ?_
  · obtain ⟨v, hl⟩ := Option.isSome_iff_exists.mp hn
    rw [FunDecl.names, List.map_append]
    exact List.mem_append_left _ (bindParams_lookup hl).1
  · have hscope : k.what.scope? = some f.decl.names := by rw [hwhat]; rfl
    have hplaced : ∀ s ∈ f.decl.body, s.Placed o r₁.past (k.frame :: f.env) :=
      .body hk hscope fun t ht => List.mem_map_of_mem (List.mem_append_right _ ht)
    refine ((hu.runAll f.decl.body hf.body hplaced).within fun _ _ => trivial).returning.bind fun _ v _ hv => ?_
    cases f.isInitializer with
    | true => exact (Upholds.ownInstance f).imp fun _ _ h => ⟨h.1, fun _ => h.2⟩
    | false => exact .pure fun _ h₃ => ⟨later h₃ hv, nofun⟩

theorem invoke (hu : UpheldBy o ev ex) {f : Closure} (hf : f.decl.Regular) {values : List Value}
    (hv : ∀ v ∈ values, r₀.Has v) : Upholds o r₀ env (Traced.invoke ex f values) Recorder.Has :=
  (hu.invoke_yields hf hv).imp fun _ _ h => h.1

/-- A method is bound to an object, and then something is done with it. -/
theorem bindTo {f : Closure} (hf : f.decl.Regular ∧ f.isInitializer = (f.decl.name.text == initializerName))
    {object : Value} (ho : r₀.Has object) (hinstance : ∃ id c, object = .instance_ id c) {t : Closure → Traced α}
    (h : ∀ r₁ k, r₀.Before r₁ → ({ f with env := k :: f.env } : Closure).Genuine r₁.past →
      Upholds o r₁ env (t { f with env := k :: f.env }) post) :
    Upholds o r₀ env (Traced.bindTo object f >>= t) post := by
  unfold Traced.bindTo
  simp only [bind_assoc, pure_bind]
  refine .opens ["this"] rfl id (fun n hn => ?_) (fun n v hl => ?_) ⟨hinstance, rfl⟩
    (fun r hr => ⟨hf.2, later hr ho⟩) fun r₁ k h₁ hk hwhat _ => ?_
  · obtain ⟨v, hl⟩ := Option.isSome_iff_exists.mp hn
    exact List.mem_singleton.mpr (Slots.lookup_singleton hl).1
  · exact (Slots.lookup_singleton hl).2 ▸ ho
  · exact h r₁ k.frame h₁ ⟨hf.1, fun _ => ⟨object, k, hk, f, hwhat, rfl⟩⟩

theorem construct (hu : UpheldBy o ev ex) {c : Class} (hc : c.Made r₀.past) {values : List Value}
    (hv : ∀ v ∈ values, r₀.Has v) : Upholds o r₀ env (Traced.construct ex c values) Recorder.Has := by
  refine Upholds.newInstance.bind fun r₁ id h₁ hid => ?_
  have hobject : r₁.Has (.instance_ id c) := ⟨hid, hc.mono h₁.past.subset⟩
  cases hinit : c.find? initializerName with
  | none => exact .pure fun _ h₂ => later h₂ hobject
  | some init =>
    refine bindTo (hc.declared hinit) hobject ⟨id, c, rfl⟩ fun r₂ f h₂ hf => ?_
    refine (hu.invoke hf.regular fun v hm => later (h₁.trans h₂) (hv v hm)).bind fun _ _ h₃ _ => ?_
    exact .pure fun _ h₄ => later (h₂.trans (h₃.trans h₄)) hobject

theorem callValue (hu : UpheldBy o ev ex) {f : Value} (hf : r₀.Has f) (closing : Lexeme)
    {values : List Value} (hv : ∀ v ∈ values, r₀.Has v) :
    Upholds o r₀ env (Traced.callValue S ex f closing values) Recorder.Has := by
  have hcall (callee : Callable) (hc : f.callable? = some callee) :
      Upholds o r₀ env (Traced.call S ex callee values) Recorder.Has := by
    cases f <;> simp only [Value.callable?, Option.some.injEq, reduceCtorEq] at hc <;> subst hc
    · exact .readClock _
    · exact hu.invoke (Closure.Genuine.regular hf) hv
    · exact hu.construct hf hv
  unfold Traced.callValue
  cases hc : f.callable? with
  | none => exact .fail _ _
  | some callee =>
    dsimp only
    split
    · exact .fail _ _
    · rename_i hn
      exact (hcall callee hc).attempt later fun r hr =>
        ⟨⟨f, hc, later hr hf⟩, fun v hm => later hr (hv v hm), not_not.mp hn⟩

/-! #### Properties -/

theorem bound {f : Closure} (hf : f.decl.Regular ∧ f.isInitializer = (f.decl.name.text == initializerName))
    {object : Value} (ho : r₀.Has object) (hinstance : ∃ id c, object = .instance_ id c) :
    Upholds o r₀ env (Traced.bound object f) Recorder.Has :=
  bindTo hf ho hinstance fun _ _ _ hf => .newFunction hf

theorem property {object : Value} (ho : r₀.Has object) (name : Lexeme) :
    Upholds o r₀ env (Traced.property object name) Recorder.Has := by
  cases object with
  | instance_ id c =>
    refine (Upholds.fieldOf id name).bind fun r₁ v? h₁ hv => ?_
    cases v? with
    | some v => exact .pure fun _ h₂ => later h₂ (hv v rfl)
    | none =>
      dsimp only
      cases hf : c.find? name.text with
      | some method => exact bound (Class.Made.declared ho.2 hf) (later h₁ ho) ⟨id, c, rfl⟩
      | none => exact .fail _ _
  | _ => exact .fail _ _

theorem superMethod {superclass object : Value} (hs : r₀.Has superclass) (ho : r₀.Has object) (method : Lexeme) :
    Upholds o r₀ env (Traced.superMethod superclass object method) Recorder.Has := by
  cases superclass with
  | cls c =>
    cases object with
    | instance_ id c' =>
      unfold Traced.superMethod
      dsimp only
      cases hf : c.find? method.text with
      | some found => exact bound (Class.Made.declared hs hf) ho ⟨id, c', rfl⟩
      | none => exact .fail _ _
    | _ => exact .throw trivial
  | _ => exact .throw trivial

/-! #### Expressions -/

theorem evalWith (hu : UpheldBy o ev ex) {e : Expr NodeId} (hs : e.Spelled)
    (hset : ∀ id object name value, e ≠ .set id object name value) :
    Upholds o r₀ env (Traced.evalWith o.settings ev ex e) Recorder.Has := by
  cases e with
  | literal id value => exact .pure fun _ _ => (Value.scalar_ofLiteral value).genuine
  | group id inner => exact hu.expr hs
  | unary id op sign operand => exact (hu.expr (e := operand) hs).bind fun _ v _ _ => .computes (op.computes _ _)
  | binary id op sign left right =>
    obtain ⟨hl, hr⟩ := List.forall_mem_append.mp hs
    exact (hu.expr hl).bind fun _ a _ _ => (hu.expr hr).bind fun _ b _ _ => .computes (op.computes _ _ _)
  | logical id op sign left right =>
    obtain ⟨hl, hr⟩ := List.forall_mem_append.mp hs
    refine (hu.expr hl).bind fun _ a _ ha => ?_
    split
    · exact .pure fun _ h₂ => later h₂ ha
    · exact hu.expr hr
  | name ref => exact .read _ ref
  | assign target value =>
    obtain ⟨hv, ht⟩ := List.forall_mem_append.mp hs
    have hname : target.name.IsName := ht _ (List.mem_singleton_self _)
    exact (hu.expr hv).bind fun _ v _ hv => (Upholds.write _ target hname.ordinary hv).bind fun _ _ h₂ _ =>
      .pure fun _ h₃ => later (h₂.trans h₃) hv
  | call id callee closing arguments =>
    obtain ⟨hc, ha⟩ := List.forall_mem_append.mp hs
    exact (hu.expr hc).bind fun _ f _ hf => (hu.evalEach arguments ha).bind fun _ _ h₂ hvs =>
      hu.callValue (later h₂ hf) closing hvs
  | get id object name => exact (hu.expr (e := object) hs).bind fun _ o _ ho => property ho name
  | set id object name value => exact absurd rfl (hset id object name value)
  | this ref => exact .read _ ref
  | super ref method => exact (Upholds.readSuper _ ref method).bind fun _ p _ hp => superMethod hp.1 hp.2 method

/-! #### Statements -/

theorem repeatWhile {condition : Traced Value} {body : Traced Unit}
    (hc : ∀ r₁, r₀.Before r₁ → Upholds o r₁ env condition fun _ _ => True)
    (hb : ∀ r₁, r₀.Before r₁ → Upholds o r₁ env body fun _ _ => True) :
    ∀ (limit : Nat) (r₁ : Recorder), r₀.Before r₁ →
      Upholds o r₁ env (Traced.repeatWhile condition body limit) fun _ _ => True
  | 0, _, _ => .throw trivial
  | limit + 1, r₁, h => by
    refine (hc r₁ h).bind fun r₂ v h₁ _ => ?_
    split
    · exact (hb r₂ (h.trans h₁)).bind fun r₃ _ h₂ _ => repeatWhile hc hb limit r₃ (h.trans (h₁.trans h₂))
    · exact .pure fun _ _ => trivial

/-- The end of a class statement: the class is bound to its name. -/
theorem bindMade {c : Making} (hmem : c.moment ∈ r₀.past)
    (hwhat : c.moment.what = .makes c.name c.superclass c.methods c.parent) (hmethods : ∀ d ∈ c.methods, d.Regular)
    (hbelow : ∀ k ∈ c.parent, k.own.id < c.moment.machine.heap.nextId) (hparent : ∀ k ∈ c.parent, k.Made r₀.past)
    (hn : Ordinary c.name.text) (hd : Declarable o r₀.past env c.name.text) :
    Upholds o r₀ env (lift (Action.define c.name.text (.cls c.made))) fun _ _ => True :=
  .define hn hd (Class.Made.intro hmem hwhat hmethods hbelow hparent)

/-- To read a name changes nothing, in any way to look it up. -/
theorem reads_still (look : Lookup) (ref : Reference NodeId) (m : Machine) :
    (∃ v, Action.read look ref m = .ok v m) ∨ ∃ e, Action.read look ref m = .error e m := by
  cases look with
  | byDistance => exact read_still ref m
  | bySearch =>
    have hrun : Action.read .bySearch ref m = Action.searchIn m.env ref.name m := rfl
    rw [hrun, searchIn_apply]
    cases m.heap.search m.env ref.name.text with
    | some v => exact .inl ⟨v, rfl⟩
    | none => exact .inr ⟨_, rfl⟩

/-- To find the superclass of a class changes nothing. -/
theorem superclass_still (S : Settings) (superclass : Option (Reference NodeId)) (m : Machine) :
    (∃ parent, superclass.mapM (readSuperclass S) m = .ok parent m) ∨
      ∃ e, superclass.mapM (readSuperclass S) m = .error e m := by
  cases superclass with
  | none => exact .inl ⟨none, rfl⟩
  | some ref =>
    have hfound : (∃ c, readSuperclass S ref m = .ok c m) ∨ ∃ e, readSuperclass S ref m = .error e m := by
      rcases reads_still S.lookup ref m with ⟨v, hv⟩ | ⟨e, he⟩
      · cases v with
        | cls c => exact .inl ⟨c, bind_ok hv⟩
        | _ => exact .inr ⟨_, bind_ok hv⟩
      · exact .inr ⟨e, bind_error he⟩
    rcases hfound with ⟨c, hc⟩ | ⟨e, he⟩
    · exact .inl ⟨some c, bind_ok hc⟩
    · exact .inr ⟨e, bind_error he⟩

theorem defineClass {name : Lexeme} {superclass : Option (Reference NodeId)} {methods : List (FunDecl NodeId)}
    (hn : name.IsName) (hmethods : ∀ d ∈ methods, d.Regular) (hd : Declarable o r₀.past env name.text) :
    Upholds o r₀ env (Traced.defineClass o.settings name superclass methods) fun _ _ => True := by
  intro r hr
  have hsuper := Upholds.superclass o.settings superclass r hr
  unfold Traced.defineClass
  rcases superclass_still o.settings superclass r.machine with ⟨parent, hfound⟩ | ⟨e, he⟩
  swap
  · have hlift : lift (superclass.mapM (readSuperclass o.settings)) r = .error e r := congrArg (mapState _) he
    rw [hlift] at hsuper
    rw [bind_error hlift]
    exact hsuper
  have hlift : lift (superclass.mapM (readSuperclass o.settings)) r = .ok parent r := congrArg (mapState _) hfound
  rw [hlift] at hsuper
  rw [bind_ok hlift]
  let c : Making := ⟨name, superclass, methods, parent, ⟨r.machine, .makes name superclass methods parent⟩⟩
  have hparent : ∀ k ∈ c.parent, k.Made r.past := hsuper.2
  have hd : Declarable o r.past env name.text := hd.mono hr.later.past
  -- first the name is bound to nothing
  have hnil : Recorder.Upheld o ⟨r.machine.defined name.text .nil, r.past⟩ r env := by
    have hdef := Upholds.define hn.ordinary hd (v := .nil) trivial r { hr with later := .refl r }
    unfold lift at hdef
    rw [define_apply] at hdef
    exact hdef.1
  have horderly := Making.orderly (c := c) hnil.orderly hnil.later.heap rfl hparent
  let s : Recorder := ⟨{ c.inside with heap := c.inside.heap.newId.2 }, c.moment :: r.past⟩
  have hsince : r.Before s := ⟨List.suffix_cons _ _, horderly.grown c.moment List.mem_cons_self⟩
  have hs : s.Upheld o r₀ env := by
    refine ⟨hr.later.trans hsince, hr.begun.trans hsince.past, c.inside_env.trans hr.env, horderly, ?_, hr.moments⟩
    exact ⟨hr.orderly, hn, hmethods, hparent, hfound⟩
  have hrun : (Traced.note (.makes name superclass methods parent) >>= fun _ =>
      lift (bindClass name methods parent)) r = lift (Action.define name.text (.cls c.made)) s := by
    have hbind : bindClass name methods parent r.machine = c.finish c.inside := c.bindClass_eq
    have hfinish : c.finish c.inside = Action.define name.text (.cls c.made) s.machine := by
      unfold Making.made
      rw [← c.inside_nextId]
      rfl
    exact congrArg (mapState _) (hbind.trans hfinish)
  rw [hrun]
  have hbind : Upholds o s env (lift (Action.define name.text (.cls c.made))) fun _ _ => True :=
    bindMade List.mem_cons_self rfl hmethods (fun k hk => hr.orderly.below (hparent k hk))
      (fun k hk => (hparent k hk).mono hsince.past.subset) hn.ordinary (hd.mono hsince.past)
  exact Upholds.ends_since hs.later (hbind s { hs with later := .refl s })

theorem execWith (hu : UpheldBy o ev ex) {s : Stmt NodeId} (hs : s.Regular)
    (hd : ∀ t, s.declared? = some t → Declarable o r₀.past env t.text) (hblock : ∀ body, s ≠ .block body)
    (limit : Nat) : Upholds o r₀ env (Traced.execWith o.settings ev ex limit s) fun _ _ => True := by
  obtain ⟨hformed, hdistinct⟩ := hs
  have hname (t : Lexeme) (ht : s.declared? = some t) : Ordinary t.text := Stmt.Regular.ordinary ⟨hformed, hdistinct⟩ ht
  cases s with
  | expression value => exact (hu.expr hformed).bind fun _ _ _ _ => .pure fun _ _ => trivial
  | print value => exact (hu.expr hformed).bind fun _ _ _ hv => .print hv
  | var name initializer =>
    exact (hu.evalOptional hformed.2).bind fun _ v h₁ hv => .define (hname name rfl) ((hd name rfl).mono h₁.past) hv
  | block body => exact absurd rfl (hblock body)
  | ite condition yes no =>
    cases no with
    | none =>
      obtain ⟨hc, hy, hdy⟩ := hformed
      refine (hu.expr hc).bind fun _ v _ _ => ?_
      split
      · exact hu.stmt ⟨hy, hdistinct⟩ (.of_none hdy)
      · exact .pure fun _ _ => trivial
    | some no =>
      obtain ⟨hc, ⟨hy, hdy⟩, hn, hdn⟩ := hformed
      obtain ⟨hyes, hno⟩ := List.forall_mem_append.mp hdistinct
      refine (hu.expr hc).bind fun _ v _ _ => ?_
      split
      · exact hu.stmt ⟨hy, hyes⟩ (.of_none hdy)
      · exact hu.stmt ⟨hn, hno⟩ (.of_none hdn)
  | «while» condition body =>
    obtain ⟨hc, hb, hdb⟩ := hformed
    exact repeatWhile (fun _ _ => (hu.expr hc).imp fun _ _ _ => trivial)
      (fun _ _ => hu.stmt ⟨hb, hdistinct⟩ (.of_none hdb)) limit r₀ (.refl r₀)
  | function decl =>
    refine .get fun r hr => ?_
    have hf : (⟨decl, r.machine.env, false⟩ : Closure).Genuine r.past := ⟨⟨hformed.2, hdistinct⟩, fun hi => nomatch hi⟩
    have hfun : Upholds o r env (lift (Action.newFunction ⟨decl, r.machine.env, false⟩ >>=
        Action.define decl.name.text)) fun _ _ => True :=
      .bind_lift (.newFunction hf) fun _ v h₁ hv =>
        .define (hname decl.name rfl) ((hd decl.name rfl).mono (hr.later.trans h₁).past) hv
    exact Upholds.ends_since hr.later (hfun r { hr with later := .refl r })
  | ret keyword value =>
    exact (hu.evalOptional hformed).bind fun _ v _ hv => .throw hv
  | cls name superclass methods =>
    exact defineClass hformed.1 (FunDecl.regular_each hformed.2.2 hdistinct) (hd name rfl)

/-- An assignment to a field, and the moment at which it is evaluated. -/
theorem evalSet {fuel : Nat} (hu : UpheldBy o (Traced.eval o.settings fuel) (Traced.exec o.settings fuel)) {id : NodeId}
    {object : Expr NodeId} {name : Lexeme} {value : Expr NodeId} (hs : (Expr.set id object name value).Spelled) :
    Upholds o r₀ env (Traced.note (.evaluates (.set id object name value)) >>= fun _ =>
      Traced.evalWith o.settings (Traced.eval o.settings fuel) (Traced.exec o.settings fuel)
        (.set id object name value)) Recorder.Has := by
  intro r hr
  obtain ⟨hvalue, hobject⟩ := List.forall_mem_append.mp hs
  let k : Moment := ⟨r.machine, .evaluates (.set id object name value)⟩
  have hk : Recorder.Upheld o ⟨r.machine, k :: r.past⟩ r₀ env :=
    hr.happens rfl (.refl _) (hr.orderly.note k.what rfl trivial fun h => h) hs
  rw [Traced.note_bind]
  refine (hu.expr hobject).bind_run hk fun s u hrun hs _ => ?_
  cases u with
  | instance_ i c =>
    refine (hu.expr hvalue).bind_run hs fun s' v hrun' hs' hv => ?_
    have hset : SetIn o.settings s'.past i name.text v := by
      have hfirst := (hu.expr hobject ⟨r.machine, k :: r.past⟩ { hk with later := .refl _ }).of_ok hrun
      have hsecond := (hu.expr hvalue s { hs with later := .refl _ }).of_ok hrun'
      exact .mono (hfirst.1.later.past.trans hsecond.1.later.past)
        ⟨[], k, r.past, rfl, id, object, name, value, fuel, c, s, s', rfl, rfl, hrun, hrun'⟩
    exact Upholds.ends_since hs'.later ((Upholds.setField hset hv).bind
      (fun _ _ h₁ _ => .pure fun _ h₂ => later (h₁.trans h₂) hv) s' { hs' with later := .refl s' })
  | _ => exact Upholds.fail _ _ s hs

/-- A block that is run: its frame is the one that the moment makes. -/
theorem execBlock (hu : UpheldBy o ev ex) {body : List (Stmt NodeId)} (hs : (Stmt.block body).Regular)
    (limit : Nat) : Upholds o r₀ env (Traced.note (.executes (.block body)) >>= fun _ =>
      Traced.execWith o.settings ev ex limit (.block body)) fun _ _ => True := by
  have hnest : Upholds o r₀ env (Traced.note (.executes (.block body)) >>= fun _ =>
      lift (Action.nest [] env) >>= fun inside => Traced.within inside (Traced.runAll ex body)) fun _ _ => True := by
    refine .opens ((Stmt.declarations body).map Lexeme.text) rfl id (fun _ hn => nomatch hn)
      (fun _ _ hv => nomatch hv) trivial (fun _ _ => hs) fun r₁ k _ hk hwhat _ => ?_
    have hscope : k.what.scope? = some ((Stmt.declarations body).map Lexeme.text) := by rw [hwhat]; rfl
    exact .within (fun _ _ => trivial)
      (hu.runAll body hs.block (.body hk hscope fun t ht => List.mem_map_of_mem ht))
  -- the frame is opened in the chain that the machine has
  exact fun r hr => hr.env ▸ (hr.env ▸ hnest) r (hr.env ▸ hr)

end UpheldBy

/-- Evaluation keeps recorders orderly, with any amount of fuel. -/
theorem upholds_evaluation (o : Outset) (fuel : Nat) :
    UpheldBy o (Traced.eval o.settings fuel) (Traced.exec o.settings fuel) := by
  induction fuel with
  | zero => exact ⟨fun _ => .throw trivial, fun _ _ => .throw trivial⟩
  | succ fuel hu =>
    refine ⟨fun {_ _ e} hs => ?_, fun {_ _ s} hs hp => ?_⟩
    · by_cases hset : ∃ id object name value, e = .set id object name value
      · obtain ⟨i, object, name, value, rfl⟩ := hset
        exact hu.evalSet hs
      · exact .note rfl trivial id (fun _ _ => hs) fun _ _ _ _ _ _ =>
          hu.evalWith hs fun i object name value he => hset ⟨i, object, name, value, he⟩
    · by_cases hblock : ∃ body, s = .block body
      · obtain ⟨body, rfl⟩ := hblock
        exact hu.execBlock hs fuel
      · have hscope : (Happening.executes s).scope? = none := by
          cases s with
          | block body => exact absurd ⟨body, rfl⟩ hblock
          | _ => rfl
        exact .note hscope trivial id (fun _ _ => hs) fun _ k h₁ hk hwhat henv =>
          hu.execWith hs (fun t ht => (hp.mono h₁.past).declarable hk hwhat henv ht)
            (fun body hb => hblock ⟨body, hb⟩) fuel

/-- An expression that is evaluated to a value. -/
theorem Traced.eval_upheld {e : Expr NodeId} (he : e.Spelled) {r s : Recorder} (hr : r.Upheld o r₀ env) {fuel : Nat}
    {v : Value} (hrun : Traced.eval o.settings fuel e r = .ok v s) : s.Upheld o r env ∧ s.Has v :=
  ((upholds_evaluation o fuel).expr he r { hr with later := .refl r }).of_ok hrun

/-! ### What a step runs -/

/-- The statements at the top level of what is run. -/
def Code.topLevel : Code → List (Stmt NodeId)
  | program body => body
  | expression _ => []

/-- The statements at the top level of the program that a step runs, if it is accepted. -/
def Step.topLevel (next : NodeId) (st : Step) : List (Stmt NodeId) :=
  match st.job next with
  | .ok job => job.code.topLevel
  | .error _ => []

/-- What is run is as analysis accepts it. -/
def Code.Regular : Code → Prop
  | program body => ∀ s ∈ body, s.Regular
  | expression e => e.Spelled

theorem Step.job_regular {st : Step} {next : NodeId} {job : Job} (h : st.job next = .ok job) : job.code.Regular := by
  cases st with
  | run source =>
    obtain ⟨p, last, ha, rfl⟩ := job_run h
    obtain ⟨_, -, -, haccepted⟩ := analyze_ok ha
    exact Stmt.regular_all haccepted.formed haccepted.neat.distinct
  | evaluate source =>
    obtain ⟨e, last, ha, rfl⟩ := job_evaluate h
    obtain ⟨plain, hreads, hnum, -⟩ := analyzeExpression_stages ha
    have hspelled := Expr.spelled_number hreads.spelled next
    rw [hnum] at hspelled
    exact hspelled

/-- A job that is run keeps recorders orderly, and what it yields is a value of the run. -/
theorem Code.trace_upheld (hS : o.settings = S) {code : Code} (hcode : code.Regular) (hbody : o.body = code.topLevel)
    {r : Recorder}
    (henv : r.machine.env = [globalFrame]) (hp : o.past = r.past) (ho : r.Orderly o)
    (hm : Throughout (Moment.Orderly o) r.past) : r.EndsUpheld o [globalFrame] Recorder.Has (code.trace S r) := by
  have hr : r.Upheld o r [globalFrame] := ⟨.refl r, hp ▸ List.suffix_refl _, henv, ho, hm⟩
  subst hS
  have hu := upholds_evaluation o o.settings.fuel
  cases code with
  | program body =>
    refine ((hu.runAll body hcode fun s hs t _ => ?_).bind fun _ _ _ _ => .pure fun _ _ => ?_) r hr
    · exact .inl ⟨rfl, hbody.symm ▸ hs⟩
    · exact trivial
  | expression e => exact hu.expr hcode r hr

/-! ### Sessions -/

/-- The names of the globals that there are. -/
def Machine.globals (m : Machine) : List String := (m.heap.slots globalFrame).map Prod.fst

theorem Machine.mem_globals {m : Machine} {n : String} : n ∈ m.globals ↔ m.heap.binds globalFrame n = true := by
  unfold globals Heap.binds Slots.binds
  rw [List.lookup_isSome_iff]
  constructor
  · intro h
    obtain ⟨⟨n, v⟩, hp, rfl⟩ := List.mem_map.mp h
    exact ⟨(n, v), hp, beq_self_eq_true n⟩
  · rintro ⟨p, hp, hn⟩
    exact List.mem_map.mpr ⟨p, hp, (eq_of_beq hn).symm⟩

/-- The moments of an orderly recorder, at another outset, with all names of the globals that there are. -/
theorem Recorder.Orderly.rebase_moments {r : Recorder} (h : r.Orderly o) (hm : Throughout (Moment.Orderly o) r.past)
    {o' : Outset} (hS : o'.settings = o.settings)
    (hn : ∀ n, r.machine.heap.binds globalFrame n = true → n ∈ o'.globals) :
    Throughout (Moment.Orderly o') r.past := by
  refine throughout_iff.mpr fun late k early hsplit => ?_
  have hk := throughout_iff.mp hm late k early hsplit
  have hmem : k ∈ r.past := hsplit ▸ List.mem_append_right _ List.mem_cons_self
  exact ⟨hk.1.rebase hS fun n hb => hn n ((h.grown k hmem).binds _ n hb), hS ▸ hk.2⟩

/-- A moment as the beginning of a run. -/
def Moment.outset (S : Settings) (k : Moment) : Outset := ⟨S, k.machine.globals, [], []⟩

/-- The recorder just before a moment of a history. -/
theorem Moment.Orderly.upheld {k : Moment} {early : History} (hm : Throughout (Moment.Orderly o) (k :: early)) :
    Recorder.Upheld (k.outset o.settings) ⟨k.machine, early⟩ ⟨k.machine, early⟩ k.machine.env := by
  have hn (n : String) (hb : k.machine.heap.binds globalFrame n = true) : n ∈ (k.outset o.settings).globals :=
    Machine.mem_globals.mpr hb
  have hS : (k.outset o.settings).settings = o.settings := rfl
  exact ⟨.refl _, ⟨early, List.append_nil _⟩, rfl, hm.1.1.rebase hS hn, hm.1.1.rebase_moments hm.2 hS hn⟩

/-- What a step of a session begins with. -/
def Session.outset (settings : Settings) (s : Session) (past : History) (st : Step) : Outset :=
  ⟨settings, s.machine.globals, st.topLevel s.nextNode, past⟩

/-- What holds of a session after the moments of the past. -/
structure Session.Orderly (o : Outset) (past : History) (s : Session) : Prop where
  env : s.machine.env = [globalFrame]
  orderly : Recorder.Orderly o ⟨s.machine, past⟩
  moments : Throughout (Moment.Orderly o) past

namespace Session.Orderly

variable {past : History} {s : Session}

/-- At another outset, with all names of the globals that there are. -/
theorem rebase (h : s.Orderly o past) {o' : Outset} (hS : o'.settings = o.settings)
    (hn : ∀ n ∈ s.machine.globals, n ∈ o'.globals) : s.Orderly o' past := by
  have hbinds (n : String) (hb : s.machine.heap.binds globalFrame n = true) : n ∈ o'.globals :=
    hn n (Machine.mem_globals.mpr hb)
  exact ⟨h.env, h.orderly.rebase hS hbinds, h.orderly.rebase_moments h.moments hS hbinds⟩

/-- A step of a session, if it is accepted. -/
theorem upheld (hS : o.settings = S) (h : s.Orderly o past) {st : Step} {job : Job}
    (hjob : st.job s.nextNode = .ok job) :
    Recorder.EndsUpheld (s.outset S past st) ⟨s.prepared job, past⟩ [globalFrame] Recorder.Has
      (job.code.trace S ⟨s.prepared job, past⟩) := by
  have hat : s.Orderly (s.outset S past st) past := h.rebase hS.symm fun _ hn => hn
  have hbody : (s.outset S past st).body = job.code.topLevel := by
    unfold outset Step.topLevel
    rw [hjob]
  exact Code.trace_upheld rfl (Step.job_regular hjob) hbody h.env rfl (hat.orderly.machine rfl) hat.moments

/-- What a step does keeps order, and what was before is before. -/
theorem step (hS : o.settings = S) (h : s.Orderly o past) (st : Step) :
    (s.step S st).2.Orderly (s.outset S past st) (s.history S past st) ∧
      Recorder.Before ⟨s.machine, past⟩ ⟨(s.step S st).2.machine, s.history S past st⟩ := by
  unfold Session.history
  cases hjob : st.job s.nextNode with
  | error faults =>
    rw [step_rejected_eq S hjob]
    exact ⟨h.rebase hS.symm fun _ hn => hn, .refl _⟩
  | ok job =>
    rw [step_eq S hjob, Code.endState_run S job.code ⟨s.prepared job, past⟩]
    have hend := (h.upheld hS hjob).upheld
    exact ⟨⟨hend.env, hend.orderly, hend.moments⟩, hend.later.past, hend.later.heap⟩

/-- A session stays orderly. -/
theorem during (hS : o.settings = S) (h : s.Orderly o past) (steps : List Step) :
    ∃ o', o'.settings = S ∧ (s.perform S steps).2.Orderly o' (s.historyDuring S past steps) := by
  induction steps generalizing s past o with
  | nil => exact ⟨o, hS, h⟩
  | cons st steps ih => exact ih rfl (h.step hS st).1

end Session.Orderly

/-- A session at its start. -/
theorem Session.start_orderly (S : Settings) (sink : Sink) :
    (Session.start sink).Orderly ⟨S, ["clock"], [], []⟩ [] := by
  have hslots (f : FrameId) (n : String) (v : Value)
      (hv : ((Machine.start sink).heap.slots f).lookup n = some v) : f = globalFrame ∧ n = "clock" ∧ v = .clock := by
    have hheap : (Machine.start sink).heap = Heap.empty.define globalFrame "clock" .clock := rfl
    rw [hheap, Heap.slots_define] at hv
    split at hv
    · rename_i hf
      by_cases hn : n = "clock"
      · rw [hn, Slots.lookup_define_self] at hv
        exact ⟨hf.1, hn, (Option.some.inj hv).symm⟩
      · rw [Slots.lookup_define_of_ne _ _ hn] at hv
        exact absurd hv (by simp [Heap.slots, Heap.empty, globalFrame])
    · rename_i hf
      cases f with
      | zero => exact absurd ⟨rfl, by simp [Heap.empty, globalFrame]⟩ hf
      | succ f => exact absurd hv (by simp [Heap.slots, Heap.empty])
  have hfields (i : Nat) (n : String) : (Machine.start sink).heap.field? i n = none := rfl
  refine ⟨rfl, ⟨⟨Nat.zero_lt_one, fun n hb => ?_, fun f h0 hlt => ?_, List.forall_mem_nil _, List.forall_mem_nil _⟩,
    fun f n v hv => ?_, fun i n v hv => ?_, List.forall_mem_nil _, List.forall_mem_nil _, List.forall_mem_nil _,
    List.forall_mem_nil _⟩, trivial⟩
  · obtain ⟨v, hv⟩ := Option.isSome_iff_exists.mp hb
    exact .inl (List.mem_singleton.mpr (hslots _ n v hv).2.1)
  · exact absurd (Nat.lt_one_iff.mp hlt) h0
  · rw [(hslots f n v hv).2.2]
    trivial
  · exact absurd ((hfields i n).symm.trans hv) (by simp)

end Lox
