import Lox.Proofs.Cutoffs

/-! # Fuel

Fuel only bounds how far evaluation gets.  Evaluation with more fuel ends as it does with less, with the same
history, unless the fuel runs out (`Traced.eval_reaches`, `Traced.exec_reaches`).

All that an evaluation does with its fuel is to hand less of it on, so this is one induction on the fuel over rules
for the ways of putting actions together.  The one rule that is not of this form is that of loops, which count their
rounds with fuel. -/

namespace Lox

namespace Traced

variable {α β : Type}

/-- The one action ends as the other, or its fuel runs out. -/
def Reaches (t t' : Traced α) : Prop := ∀ r, (∃ s, t r = .error .exhausted s) ∨ t' r = t r

namespace Reaches

variable {t t' : Traced α}

theorem refl (t : Traced α) : t.Reaches t := fun _ => .inr rfl

theorem exhausted (t : Traced α) : (lift (throw .exhausted)).Reaches t := fun r => .inl ⟨r, rfl⟩

theorem bind {f f' : α → Traced β} (h : t.Reaches t') (hf : ∀ a, (f a).Reaches (f' a)) :
    (t >>= f).Reaches (t' >>= f') := by
  intro r
  rcases h r with ⟨s, hs⟩ | hr
  · exact .inl ⟨s, bind_error hs⟩
  · cases ht : t r with
    | error e s =>
        rw [ht] at hr
        exact .inr ((bind_error hr).trans (bind_error ht).symm)
    | ok a s =>
        rw [ht] at hr
        rw [bind_ok ht, bind_ok hr]
        exact hf a s

/-- The same thing is done first. -/
theorem after {f f' : α → Traced β} (t : Traced α) (hf : ∀ a, (f a).Reaches (f' a)) :
    (t >>= f).Reaches (t >>= f') := (refl t).bind hf

/-- The same thing is done with what comes out. -/
theorem andThen (h : t.Reaches t') (f : α → Traced β) : (t >>= f).Reaches (t' >>= f) := h.bind fun a => refl (f a)

theorem within (h : t.Reaches t') (env : Env) : (Traced.within env t).Reaches (Traced.within env t') := by
  intro r
  unfold Traced.within
  rcases h ⟨{ r.machine with env := env }, r.past⟩ with ⟨s, hs⟩ | hr
  · rw [hs]
    exact .inl ⟨_, rfl⟩
  · rw [hr]
    exact .inr rfl

theorem returning {body body' : Traced Unit} (h : body.Reaches body') :
    (Traced.returning body).Reaches (Traced.returning body') := by
  intro r
  unfold Traced.returning
  rcases h r with ⟨s, hs⟩ | hr
  · rw [hs]
    exact .inl ⟨s, rfl⟩
  · rw [hr]
    exact .inr rfl

theorem calling (h : t.Reaches t') (callee : Callable) (values : List Value) (closing : Lexeme) :
    (Traced.calling callee values closing t).Reaches (Traced.calling callee values closing t') := by
  intro r
  unfold Traced.calling
  rcases h ⟨{ r.machine with depth := r.machine.depth + 1 }, ⟨r.machine, .calls callee values closing⟩ :: r.past⟩ with
    ⟨s, hs⟩ | hr
  · rw [hs]
    exact .inl ⟨_, rfl⟩
  · rw [hr]
    exact .inr rfl

/-- A choice that both make alike. -/
theorem ite {u u' : Traced α} {c : Prop} [Decidable c] (h : t.Reaches t') (hu : u.Reaches u') :
    (if c then t else u).Reaches (if c then t' else u') := by
  split
  · exact h
  · exact hu

section evaluation

variable {S : Settings} {ev ev' : Expr NodeId → Traced Value} {ex ex' : Stmt NodeId → Traced Unit}

theorem runAll (hx : ∀ s, (ex s).Reaches (ex' s)) (body : List (Stmt NodeId)) :
    (Traced.runAll ex body).Reaches (Traced.runAll ex' body) := by
  induction body with
  | nil => exact refl _
  | cons s body ih => exact (hx s).bind fun _ => ih

theorem evalEach (he : ∀ e, (ev e).Reaches (ev' e)) (es : List (Expr NodeId)) :
    (Traced.evalEach ev es).Reaches (Traced.evalEach ev' es) := by
  induction es with
  | nil => exact refl _
  | cons e es ih => exact (he e).bind fun _ => ih.andThen _

theorem evalOptional (he : ∀ e, (ev e).Reaches (ev' e)) :
    ∀ e, (Traced.evalOptional ev e).Reaches (Traced.evalOptional ev' e)
  | none => refl _
  | some e => he e

/-! ### Calls -/

theorem invoke (hx : ∀ s, (ex s).Reaches (ex' s)) (f : Closure) (values : List Value) :
    (Traced.invoke ex f values).Reaches (Traced.invoke ex' f values) :=
  after _ fun _ => after _ fun env => ((runAll hx f.decl.body).within env).returning.andThen _

theorem construct (hx : ∀ s, (ex s).Reaches (ex' s)) (c : Class) (values : List Value) :
    (Traced.construct ex c values).Reaches (Traced.construct ex' c values) := by
  refine after _ fun id => ?_
  cases c.find? initializerName with
  | none => exact refl _
  | some init => exact after _ fun f => (invoke hx f values).andThen _

theorem call (hx : ∀ s, (ex s).Reaches (ex' s)) (callee : Callable) (values : List Value) :
    (Traced.call S ex callee values).Reaches (Traced.call S ex' callee values) := by
  cases callee with
  | clock => exact refl _
  | function f => exact invoke hx f values
  | cls c => exact construct hx c values

theorem callValue (hx : ∀ s, (ex s).Reaches (ex' s)) (value : Value) (closing : Lexeme) (values : List Value) :
    (Traced.callValue S ex value closing values).Reaches (Traced.callValue S ex' value closing values) := by
  unfold Traced.callValue
  cases value.callable? with
  | none => exact refl _
  | some callee =>
      exact (refl _).ite (after _ fun _ => (refl _).ite ((call hx callee values).calling callee values closing))

/-! ### Expressions and statements -/

theorem evalWith (he : ∀ e, (ev e).Reaches (ev' e)) (hx : ∀ s, (ex s).Reaches (ex' s)) (e : Expr NodeId) :
    (Traced.evalWith S ev ex e).Reaches (Traced.evalWith S ev' ex' e) := by
  cases e with
  | literal id v => exact refl _
  | group id inner => exact he inner
  | unary id op sign operand => exact (he operand).andThen _
  | binary id op sign left right => exact (he left).bind fun _ => (he right).andThen _
  | logical id op sign left right => exact (he left).bind fun _ => (refl _).ite (he right)
  | name ref => exact refl _
  | assign target value => exact (he value).andThen _
  | call id callee closing arguments =>
      exact (he callee).bind fun f => (evalEach he arguments).bind fun values => callValue hx f closing values
  | get id object name => exact (he object).andThen _
  | set id object name value =>
      refine (he object).bind fun o => ?_
      cases o with
      | instance_ id c => exact (he value).andThen _
      | _ => exact refl _
  | this ref => exact refl _
  | super ref method => exact refl _

/-- A loop that may go on for longer. -/
theorem repeatWhile {condition condition' : Traced Value} {body body' : Traced Unit}
    (hc : condition.Reaches condition') (hb : body.Reaches body') :
    ∀ {limit limit' : Nat}, limit ≤ limit' →
      (Traced.repeatWhile condition body limit).Reaches (Traced.repeatWhile condition' body' limit')
  | 0, _, _ => exhausted _
  | _ + 1, _ + 1, h => hc.bind fun _ =>
      ite (hb.bind fun _ => repeatWhile hc hb (Nat.le_of_succ_le_succ h)) (refl _)

theorem execWith (he : ∀ e, (ev e).Reaches (ev' e)) (hx : ∀ s, (ex s).Reaches (ex' s)) {limit limit' : Nat}
    (h : limit ≤ limit') (s : Stmt NodeId) :
    (Traced.execWith S ev ex limit s).Reaches (Traced.execWith S ev' ex' limit' s) := by
  cases s with
  | expression value => exact (he value).andThen _
  | print value => exact (he value).andThen _
  | var name initializer => exact (evalOptional he initializer).andThen _
  | block body => exact after _ fun env => (runAll hx body).within env
  | ite condition yes no =>
      refine (he condition).bind fun _ => ite (hx yes) ?_
      cases no with
      | some no => exact hx no
      | none => exact refl _
  | «while» condition body => exact repeatWhile (he condition) (hx body) h
  | function decl => exact refl _
  | ret keyword value => exact (evalOptional he value).andThen _
  | cls name superclass methods => exact refl _

end evaluation

end Reaches

/-- With more fuel, expressions and statements come to the same. -/
theorem evaluation_reaches (S : Settings) : ∀ {f g : Nat}, f ≤ g →
    (∀ e, (eval S f e).Reaches (eval S g e)) ∧ ∀ s, (exec S f s).Reaches (exec S g s)
  | 0, _, _ => ⟨fun _ => .exhausted _, fun _ => .exhausted _⟩
  | _ + 1, _ + 1, h => by
      have hle := Nat.le_of_succ_le_succ h
      obtain ⟨he, hx⟩ := evaluation_reaches S hle
      exact ⟨fun e => .after _ fun _ => .evalWith he hx e, fun s => .after _ fun _ => .execWith he hx hle s⟩

/-- An expression that does not run out of fuel comes to the same with more. -/
theorem eval_reaches (S : Settings) {f g : Nat} (h : f ≤ g) (e : Expr NodeId) : (eval S f e).Reaches (eval S g e) :=
  (evaluation_reaches S h).1 e

/-- A statement that does not run out of fuel comes to the same with more. -/
theorem exec_reaches (S : Settings) {f g : Nat} (h : f ≤ g) (s : Stmt NodeId) : (exec S f s).Reaches (exec S g s) :=
  (evaluation_reaches S h).2 s

/-- Two runs that both have enough fuel come to the same. -/
theorem eval_settled (S : Settings) {f g : Nat} {e : Expr NodeId} {r : Recorder}
    (hf : ∀ s, eval S f e r ≠ .error .exhausted s) (hg : ∀ s, eval S g e r ≠ .error .exhausted s) :
    eval S g e r = eval S f e r := by
  rcases Nat.le_total f g with h | h
  · rcases eval_reaches S h e r with ⟨s, hs⟩ | heq
    · exact absurd hs (hf s)
    · exact heq
  · rcases eval_reaches S h e r with ⟨s, hs⟩ | heq
    · exact absurd hs (hg s)
    · exact heq.symm

/-- The fuel of a run is what it is given, whatever the settings say. -/
theorem evaluation_withFuel (S : Settings) (k fuel : Nat) :
    (∀ e, eval { S with fuel := k } fuel e = eval S fuel e) ∧
      ∀ s, exec { S with fuel := k } fuel s = exec S fuel s := by
  induction fuel with
  | zero => exact ⟨fun _ => rfl, fun _ => rfl⟩
  | succ fuel ih =>
      obtain ⟨he, hx⟩ := ih
      refine ⟨fun e => ?_, fun s => ?_⟩
      · rw [eval, eval, funext he, funext hx]
        cases e <;> rfl
      · rw [exec, exec, funext he, funext hx]
        cases s <;> rfl

end Traced

end Lox
