import Lox.Proofs.Cutoffs
import Lox.Proofs.Shapes

/-! # Calls and the `return` that ends them

Which function each call in progress runs, and since which moment, can be read off a history (`running`).  Where
code runs, every statement at any of its moments is accounted for (`Traced.Accounts`): it is a statement of this
code, or the innermost call in progress, a later one, runs a function in whose body it stands.  A `return` of this
code ends it: nothing is run after its expression, and what the code comes to is what the expression came to.  A
`return` in a later call has ended this call in the same way (`Consumed`). -/

namespace Lox

/-! ### Statements of a body -/

mutual

/-- A statement and those in its blocks, branches and loop bodies, but not those of functions inside it. -/
def Stmt.parts {ι : Type} : Stmt ι → List (Stmt ι)
  | .block body => .block body :: Stmt.partsAll body
  | .ite condition yes none => .ite condition yes none :: yes.parts
  | .ite condition yes (some no) => .ite condition yes (some no) :: (yes.parts ++ no.parts)
  | .while condition body => .while condition body :: body.parts
  | s => [s]

/-- The statements of a body, at any depth of blocks, branches and loops. -/
def Stmt.partsAll {ι : Type} : List (Stmt ι) → List (Stmt ι)
  | [] => []
  | s :: rest => s.parts ++ Stmt.partsAll rest

end

section parts

variable {ι : Type}

theorem Stmt.mem_parts (s : Stmt ι) : s ∈ s.parts := by
  unfold Stmt.parts
  split <;> exact List.mem_cons_self

mutual

theorem Stmt.ReturnFree.not_mem {keyword : Lexeme} {value : Option (Expr ι)} :
    ∀ {s : Stmt ι}, s.ReturnFree → .ret keyword value ∉ s.parts
  | .expression _, _, hm => nomatch List.mem_singleton.mp hm
  | .print _, _, hm => nomatch List.mem_singleton.mp hm
  | .var _ _, _, hm => nomatch List.mem_singleton.mp hm
  | .block _, h, hm => (List.mem_cons.mp hm).elim nofun (Stmt.returnFreeAll_not_mem h)
  | .ite _ _ none, h, hm => (List.mem_cons.mp hm).elim nofun (Stmt.ReturnFree.not_mem h)
  | .ite _ _ (some _), h, hm => (List.mem_cons.mp hm).elim nofun fun hm =>
      (List.mem_append.mp hm).elim (Stmt.ReturnFree.not_mem h.1) (Stmt.ReturnFree.not_mem h.2)
  | .while _ _, h, hm => (List.mem_cons.mp hm).elim nofun (Stmt.ReturnFree.not_mem h)
  | .function _, _, hm => nomatch List.mem_singleton.mp hm
  | .cls _ _ _, _, hm => nomatch List.mem_singleton.mp hm

/-- A body that is free of `return` has none among its statements. -/
theorem Stmt.returnFreeAll_not_mem {keyword : Lexeme} {value : Option (Expr ι)} :
    ∀ {body : List (Stmt ι)}, Stmt.ReturnFreeAll body → .ret keyword value ∉ Stmt.partsAll body
  | [], _, hm => nomatch hm
  | _ :: _, h, hm =>
      (List.mem_append.mp hm).elim (Stmt.ReturnFree.not_mem h.1) (Stmt.returnFreeAll_not_mem h.2)

end

/-- What a statement of a body contains, the body contains. -/
theorem Stmt.parts_subset {s : Stmt ι} : ∀ {body : List (Stmt ι)}, s ∈ body → s.parts ⊆ Stmt.partsAll body
  | _ :: _, h => match List.mem_cons.mp h with
    | .inl rfl => List.subset_append_left _ _
    | .inr h => List.subset_append_of_subset_right _ (Stmt.parts_subset h)

end parts

/-! ### Calls in progress -/

/-- A function that a call runs, with the machine and the history just before. -/
structure Entry where
  function : Closure
  start : Recorder

/-- What the calls in progress run, the innermost first: a function, or nothing, or nothing yet. -/
def running : History → List (Option Entry)
  | [] => []
  | ⟨_, .calls _ _ _⟩ :: past => none :: running past
  | ⟨m, .enters f⟩ :: past => some ⟨f, ⟨m, past⟩⟩ :: (running past).tail
  | ⟨_, .leaves⟩ :: past => (running past).tail
  | _ :: past => running past

/-- `Since P past whole`: the history `past` has gone on to `whole`, and something holds of every moment since
then and what was before it. -/
inductive Since (P : Moment → History → Prop) (past : History) : History → Prop
  | start : Since P past past
  | moment {k : Moment} {whole : History} (h : Since P past whole) (hk : P k whole) : Since P past (k :: whole)

namespace Since

variable {P Q : Moment → History → Prop} {past middle whole : History}

theorem imp (hpq : ∀ k early, P k early → Q k early) (h : Since P past whole) : Since Q past whole := by
  induction h with
  | start => exact .start
  | moment _ hk ih => exact .moment ih (hpq _ _ hk)

theorem trans (h : Since P past middle) (h' : Since P middle whole) : Since P past whole := by
  induction h' with
  | start => exact h
  | moment _ hk ih => exact .moment ih hk

theorem extends_past (h : Since P past whole) : ∃ new, whole = new ++ past := by
  induction h with
  | start => exact ⟨[], rfl⟩
  | @moment k _ _ _ ih =>
      obtain ⟨new, rfl⟩ := ih
      exact ⟨k :: new, rfl⟩

theorem throughout (h : Since P [] whole) : Throughout P whole := by
  induction h with
  | start => trivial
  | moment _ hk ih => exact ⟨hk, ih⟩

end Since

/-! ### Actions that raise no `return` -/

namespace Action

variable {α β : Type}

/-- An action that does not leave by a `return`. -/
def Unreturned (act : Action α) : Prop := ∀ m v n, act m ≠ .error (.returned v) n

namespace Unreturned

theorem of_ok {act : Action α} (h : ∀ m, ∃ a n, act m = .ok a n) : act.Unreturned := by
  intro m v n he
  obtain ⟨a, k, hk⟩ := h m
  exact nomatch hk.symm.trans he

theorem pure (a : α) : (Pure.pure a : Action α).Unreturned := of_ok fun _ => ⟨_, _, rfl⟩

theorem throw {e : Exit} (h : ∀ v, e ≠ .returned v) : (MonadExcept.throw e : Action α).Unreturned := by
  rintro m v n ⟨⟩
  exact h v rfl

theorem bind {act : Action α} {f : α → Action β} (h : act.Unreturned) (hf : ∀ a, (f a).Unreturned) :
    (act >>= f).Unreturned := by
  intro m v n
  change EStateM.bind act f m ≠ _
  unfold EStateM.bind
  cases hrun : act m with
  | ok a s => exact hf a s v n
  | error e s =>
      rintro he
      cases he
      exact h m v n hrun

theorem get {f : Machine → Action α} (hf : ∀ m, (f m).Unreturned) : (MonadState.get >>= f).Unreturned :=
  fun m => hf m m

theorem modifyHeap (f : Heap → Heap) : (Action.modifyHeap f).Unreturned := of_ok fun _ => ⟨_, _, rfl⟩

theorem updateHeap (f : Heap → α × Heap) : (Action.updateHeap f).Unreturned := of_ok fun _ => ⟨_, _, rfl⟩

theorem readClock (clock : Nat → Nat) : (Action.readClock clock).Unreturned := of_ok fun _ => ⟨_, _, rfl⟩

theorem elementary {act : Action α} (h : act.Elementary) : act.Unreturned := by
  induction h with
  | pure a => exact pure a
  | throw h => exact throw h
  | bind _ _ ih ihf => exact bind ih ihf
  | get _ _ ih => exact get ih
  | modifyHeap _ => exact modifyHeap _
  | updateHeap _ => exact updateHeap _
  | readClock clock => exact readClock clock

theorem printLine (value : Value) : (Action.printLine value).Unreturned := by
  intro m v n
  unfold Action.printLine
  dsimp only
  cases m.sink.write (value.text ++ "\n").toUTF8 with
  | mk fault sink => cases fault <;> exact nofun

end Unreturned

/-- An action that leaves the chain as it was, and does not leave by a `return`. -/
structure Plain (act : Action α) : Prop where
  restores : act.Restores
  unreturned : act.Unreturned

theorem Plain.elementary {act : Action α} (h : act.Elementary) : act.Plain := ⟨.elementary h, .elementary h⟩

end Action

/-! ### What a `return` comes to -/

/-- A recorder with another scope chain. -/
def Recorder.inChain (r : Recorder) (env : Env) : Recorder := ⟨{ r.machine with env := env }, r.past⟩

namespace Traced

variable {α β : Type}

/-- Leaves with a `return` on its way. -/
def raise (v : Value) : Traced α := lift (throw (.returned v))

/-- What a call of a function comes to when its body has ended with a value. -/
def settle (f : Closure) (v : Value) : Traced Value := if f.isInitializer then lift (ownInstance f) else return v

/-- What a call of a function comes to when its body has come to this. -/
def conclude (f : Closure) : EStateM.Result Exit Recorder Unit → EStateM.Result Exit Recorder Value
  | .ok () r => settle f .nil r
  | .error (.returned v) r => settle f v r
  | .error e r => .error e r

/-- What happens in a chain after a value is found. -/
def andThen (env : Env) (finish : Value → Traced α) :
    EStateM.Result Exit Recorder Value → EStateM.Result Exit Recorder α
  | .ok v r => finish v (r.inChain env)
  | .error e r => .error e (r.inChain env)

end Traced

open Traced

/-- A moment at which the expression of a `return` is about to be evaluated, and what the evaluation comes to: a
value, or an exit that is no `return`.  All statements that are run for it belong to later calls. -/
structure ReturnValue (S : Settings) (e : Option (Expr NodeId)) (k : Moment) (early : History)
    (value : EStateM.Result Exit Recorder Value) : Prop where
  run : ∃ fuel, value = Traced.evalOptional (Traced.eval S fuel) e ⟨k.machine, k :: early⟩
  unreturned : ∀ v s, value ≠ .error (.returned v) s
  deeper : Since (fun j mid => ∀ s, j.what = .executes s → ∃ inner, inner ≠ [] ∧ running mid = inner ++ running early)
    (k :: early) (endState value).past

/-- A call that a `return` has ended.  Nothing is run in the call after the expression of the `return`: the call
comes to its value, or to the instance if the function is an initializer, or to the exit that kept the expression
from having a value. -/
def Consumed (S : Settings) (ended : History → Prop) (k : Moment) (early : History) (call : Entry)
    (e : Option (Expr NodeId)) : Prop :=
  ∃ value fuel values, ReturnValue S e k early value ∧
    Traced.invoke (Traced.exec S fuel) call.function values call.start =
      andThen call.start.machine.env (settle call.function) value ∧
    ended (endState (Traced.invoke (Traced.exec S fuel) call.function values call.start)).past

theorem Consumed.imp {S : Settings} {ended ended' : History → Prop} {k : Moment} {early : History} {call : Entry}
    {e : Option (Expr NodeId)} (h : Consumed S ended k early call e) (hp : ∀ past, ended past → ended' past) :
    Consumed S ended' k early call e := by
  obtain ⟨value, fuel, values, hvalue, hcall, hended⟩ := h
  exact ⟨value, fuel, values, hvalue, hcall, hp _ hended⟩

/-- A call with a given history has been left. -/
def LeftIn (whole past : History) : Prop := ∃ late m, whole = late ++ ⟨m, .leaves⟩ :: past

theorem LeftIn.append {whole past : History} (h : LeftIn whole past) (new : History) : LeftIn (new ++ whole) past := by
  obtain ⟨late, m, rfl⟩ := h
  exact ⟨new ++ late, m, (List.append_assoc ..).symm⟩

/-- A statement of the innermost call in progress, inside the calls `outer`. -/
def InCall (S : Settings) (outer : List (Option Entry)) (ended : List (Option Entry) → History → Prop) (k : Moment)
    (early : History) (s : Stmt NodeId) : Prop :=
  ∃ call inner, running early = some call :: (inner ++ outer) ∧ s ∈ Stmt.partsAll call.function.decl.body ∧
    ∀ keyword e, s = .ret keyword e → Consumed S (ended inner) k early call e

theorem InCall.imp {S : Settings} {outer : List (Option Entry)} {ended ended' : List (Option Entry) → History → Prop}
    {k : Moment} {early : History} {s : Stmt NodeId} (h : InCall S outer ended k early s)
    (hp : ∀ inner past, ended inner past → ended' inner past) : InCall S outer ended' k early s := by
  obtain ⟨call, inner, hrun, hs, hret⟩ := h
  exact ⟨call, inner, hrun, hs, fun keyword e he => (hret keyword e he).imp (hp inner)⟩

/-! ### Code -/

/-- A statement at a moment of a run of code, which started at the recorder `r` and came to `res`: one of this code,
which the run comes to the end of if it is a `return`, or one in a later call. -/
def AccountedFor (S : Settings) (own : Stmt NodeId → Prop) (r : Recorder) {α : Type}
    (res : EStateM.Result Exit Recorder α) (k : Moment) (early : History) : Prop :=
  ∀ s, k.what = .executes s →
    (running early = running r.past ∧ own s ∧ ∀ keyword e, s = .ret keyword e →
      ∃ value, ReturnValue S e k early value ∧ res = andThen r.machine.env raise value) ∨
    InCall S (running r.past) (fun _ => LeftIn (endState res).past) k early s

/-- What code comes to: the chain and the calls in progress are as before, and all statements are accounted for. -/
structure ComesTo (S : Settings) (own : Stmt NodeId → Prop) (r : Recorder) {α : Type}
    (res : EStateM.Result Exit Recorder α) : Prop where
  env : (endState res).machine.env = r.machine.env
  level : running (endState res).past = running r.past
  moments : Since (AccountedFor S own r res) r.past (endState res).past
  raised : ∀ v s, res = .error (.returned v) s → ∃ keyword e, own (.ret keyword e)

/-- An action that runs statements of given code. -/
def Traced.Accounts (S : Settings) (own : Stmt NodeId → Prop) {α : Type} (t : Traced α) : Prop :=
  ∀ r, ComesTo S own r (t r)

namespace AccountedFor

variable {S : Settings} {own : Stmt NodeId → Prop} {r : Recorder} {α β : Type} {k : Moment} {early : History}

/-- What comes after code that has gone through is no part of it. -/
theorem ok {a : α} {s : Recorder} (h : AccountedFor S own r (.ok a s : EStateM.Result Exit Recorder α) k early)
    {res : EStateM.Result Exit Recorder β} {new : History} (hres : (endState res).past = new ++ s.past) :
    AccountedFor S own r res k early := by
  intro u hu
  rcases h u hu with ⟨hrun, ho, hret⟩ | h
  · refine .inl ⟨hrun, ho, fun keyword e he => ?_⟩
    obtain ⟨value, -, hvalue⟩ := hret keyword e he
    cases value <;> exact nomatch hvalue
  · exact .inr (h.imp fun _ past hp => hres ▸ hp.append new)

/-- Code that is left is left in the same way whatever it would have yielded. -/
theorem error {e : Exit} {s : Recorder}
    (h : AccountedFor S own r (.error e s : EStateM.Result Exit Recorder α) k early) :
    AccountedFor S own r (.error e s : EStateM.Result Exit Recorder β) k early := by
  intro u hu
  refine (h u hu).imp_left fun ⟨hrun, ho, hret⟩ => ⟨hrun, ho, fun keyword e he => ?_⟩
  obtain ⟨value, hvalue, hres⟩ := hret keyword e he
  refine ⟨value, hvalue, ?_⟩
  cases value <;> cases hres <;> rfl

/-- Code in another chain. -/
theorem within {env : Env} {res : EStateM.Result Exit Recorder α} (h : AccountedFor S own (r.inChain env) res k early) :
    AccountedFor S own r (mapState (Recorder.inChain · r.machine.env) res) k early := by
  intro u hu
  rcases h u hu with ⟨hrun, ho, hret⟩ | h
  · refine .inl ⟨hrun, ho, fun keyword e he => ?_⟩
    obtain ⟨value, hvalue, rfl⟩ := hret keyword e he
    exact ⟨value, hvalue, by cases value <;> rfl⟩
  · exact .inr (h.imp fun _ past hp => by cases res <;> exact hp)

/-- The same code, from a moment on at which its chain and the calls in progress are the same. -/
theorem since {s : Recorder} {res : EStateM.Result Exit Recorder α} (h : AccountedFor S own s res k early)
    (henv : s.machine.env = r.machine.env) (hlevel : running s.past = running r.past) :
    AccountedFor S own r res k early := by
  unfold AccountedFor at h ⊢
  rwa [henv, hlevel] at h

/-- A moment at which no statement is run. -/
theorem quiet {res : EStateM.Result Exit Recorder α} (h : ∀ s, k.what ≠ .executes s) :
    AccountedFor S own r res k early :=
  fun s hs => absurd hs (h s)

end AccountedFor

namespace Traced.Accounts

variable {S : Settings} {own : Stmt NodeId → Prop} {α β : Type}

/-- Actions of which no record is made. -/
theorem lift {act : Action α} (h : act.Plain) : (Traced.lift act).Accounts S own := by
  intro r
  have hrestored := (h.restores r.machine).env
  have hunreturned := h.unreturned r.machine
  unfold Action.after at hrestored
  unfold Traced.lift
  cases hrun : act r.machine with
  | ok a n =>
      rw [hrun] at hrestored
      exact ⟨hrestored, rfl, .start, nofun⟩
  | error e n =>
      rw [hrun] at hrestored
      refine ⟨hrestored, rfl, .start, ?_⟩
      rintro v s ⟨⟩
      exact absurd hrun (hunreturned v n)

theorem pure (a : α) : (Pure.pure a : Traced α).Accounts S own := lift (.elementary (.pure a))

theorem fail (fault : RuntimeFault) (line : Nat) : (Traced.lift (Action.fail fault line : Action α)).Accounts S own :=
  lift (.elementary (.fail _ _))

/-- Actions in order: a `return` of the first one ends both. -/
theorem bind {t : Traced α} {f : α → Traced β} (h : t.Accounts S own) (hf : ∀ a, (f a).Accounts S own) :
    (t >>= f).Accounts S own := by
  intro r
  have ht := h r
  cases hrun : t r with
  | error e s =>
      rw [hrun] at ht
      rw [bind_error hrun]
      refine ⟨ht.env, ht.level, ht.moments.imp fun _ _ => .error, ?_⟩
      rintro v _ ⟨⟩
      exact ht.raised v _ rfl
  | ok a s =>
      rw [hrun] at ht
      rw [bind_ok hrun]
      have hs := hf a s
      obtain ⟨new, hnew⟩ := hs.moments.extends_past
      exact ⟨hs.env.trans ht.env, hs.level.trans ht.level, (ht.moments.imp fun _ _ hk => hk.ok hnew).trans
        (hs.moments.imp fun _ _ hk => hk.since ht.env ht.level), hs.raised⟩

/-- A moment that neither begins nor ends anything, at which a statement of the code may be run. -/
theorem note {what : Happening} {t : Traced α} (hrun : ∀ m past, running (⟨m, what⟩ :: past) = running past)
    (hown : ∀ s, what = .executes s → own s ∧ ∀ keyword e, s ≠ .ret keyword e) (h : t.Accounts S own) :
    (Traced.note what >>= fun _ => t).Accounts S own := by
  intro r
  rw [note_bind]
  have ht := h ⟨r.machine, ⟨r.machine, what⟩ :: r.past⟩
  refine ⟨ht.env, ht.level.trans (hrun _ _), ?_, ht.raised⟩
  refine .trans (.moment .start fun s hs => ?_) (ht.moments.imp fun _ _ hk => hk.since rfl (hrun _ _))
  obtain ⟨ho, hret⟩ := hown s hs
  exact .inl ⟨rfl, ho, fun keyword e he => absurd he (hret keyword e)⟩

theorem within {t : Traced α} (env : Env) (h : t.Accounts S own) : (Traced.within env t).Accounts S own := by
  intro r
  have ht := h (r.inChain env)
  have hres : Traced.within env t r = mapState (Recorder.inChain · r.machine.env) (t (r.inChain env)) := rfl
  rw [hres]
  have hend : (endState (mapState (Recorder.inChain · r.machine.env) (t (r.inChain env)))).past =
      (endState (t (r.inChain env))).past := by cases t (r.inChain env) <;> rfl
  refine ⟨by cases t (r.inChain env) <;> rfl, hend ▸ ht.level, ?_, fun v s hs => ?_⟩
  · rw [hend]
    exact ht.moments.imp fun _ _ => .within
  · cases hrun : t (r.inChain env) with
    | ok a n =>
        rw [hrun] at hs
        exact nomatch hs
    | error e n =>
        rw [hrun] at hs ht
        cases hs
        exact ht.raised v _ rfl

/-- A `return` of code of which it is part, whose expression is evaluated in later calls only. -/
theorem ret {fuel : Nat} {keyword : Lexeme} {e : Option (Expr NodeId)}
    (he : (Traced.evalOptional (Traced.eval S fuel) e).Accounts S fun _ => False) (hown : own (.ret keyword e)) :
    (Traced.note (.executes (.ret keyword e)) >>= fun _ => do
      Traced.lift (throw (.returned (← Traced.evalOptional (Traced.eval S fuel) e))) : Traced Unit).Accounts S own := by
  intro r
  rw [note_bind]
  let k : Moment := ⟨r.machine, .executes (.ret keyword e)⟩
  have hv := he ⟨r.machine, k :: r.past⟩
  obtain ⟨value, hvalue⟩ : ∃ value, value = Traced.evalOptional (Traced.eval S fuel) e ⟨r.machine, k :: r.past⟩ :=
    ⟨_, rfl⟩
  rw [← hvalue] at hv
  have hreturn : ReturnValue S e k r.past value := by
    refine ⟨⟨fuel, hvalue⟩, fun v s hs => ?_, hv.moments.imp fun j mid hj s hs => ?_⟩
    · obtain ⟨_, _, ho⟩ := hv.raised v s hs
      exact ho
    · rcases hj s hs with ⟨-, ho, -⟩ | ⟨call, inner, hrun, -, -⟩
      · exact ho.elim
      · exact ⟨some call :: inner, nofun, hrun⟩
  -- the value is found in the chain that the `return` stands in
  have hres : (Traced.evalOptional (Traced.eval S fuel) e >>= fun v => (raise v : Traced Unit))
      ⟨r.machine, k :: r.past⟩ = andThen r.machine.env raise value := by
    have henv : (endState value).inChain r.machine.env = endState value := by
      have := hv.env
      generalize endState value = s at this
      obtain ⟨⟨heap, env, distances, depth, sink, readings⟩, past⟩ := s
      cases this
      rfl
    cases value with
    | ok v s => exact (bind_ok hvalue.symm).trans (congrArg (raise v) henv.symm)
    | error x s => exact (bind_error hvalue.symm).trans (congrArg (EStateM.Result.error x) henv.symm)
  change ComesTo S own r ((Traced.evalOptional (Traced.eval S fuel) e >>= fun v => (raise v : Traced Unit))
    ⟨r.machine, k :: r.past⟩)
  rw [hres]
  have hend : (endState (andThen r.machine.env raise value : EStateM.Result Exit Recorder Unit)).past =
      (endState value).past := by cases value <;> rfl
  refine ⟨by cases value <;> rfl, ?_, ?_, fun _ _ _ => ⟨keyword, e, hown⟩⟩
  · rw [hend]
    exact hv.level
  · rw [hend]
    refine .trans (.moment .start fun s hs => ?_) (hv.moments.imp fun j mid hj s hs => ?_)
    · cases hs
      refine .inl ⟨rfl, hown, ?_⟩
      rintro _ _ ⟨⟩
      exact ⟨value, hreturn, rfl⟩
    · refine (hj s hs).imp (fun ⟨_, ho, _⟩ => ho.elim) fun h => h.imp fun _ past hp => ?_
      rw [hend]
      exact hp

end Traced.Accounts

/-! ### Calls -/

/-- What a call comes to that is inside the calls `outer`: no `return` leaves it, and all statements belong to
it or to later calls. -/
structure CallComesTo (S : Settings) (outer : List (Option Entry)) (r : Recorder)
    (res : EStateM.Result Exit Recorder Value) : Prop where
  env : (endState res).machine.env = r.machine.env
  level : ∃ own, running (endState res).past = own :: outer
  moments : Since (fun k early => ∀ s, k.what = .executes s → InCall S outer (fun inner past =>
    inner = [] ∧ past = (endState res).past ∨ LeftIn (endState res).past past) k early s) r.past (endState res).past
  unreturned : ∀ v s, res ≠ .error (.returned v) s

/-- An action that is run as a call, and has run no function yet. -/
def Traced.Calls (S : Settings) (t : Traced Value) : Prop :=
  ∀ r outer, running r.past = none :: outer → CallComesTo S outer r (t r)

namespace Traced.Calls

variable {S : Settings} {α : Type}

theorem past_lift (act : Action α) (r : Recorder) : (endState (Traced.lift act r)).past = r.past := by
  unfold Traced.lift
  cases act r.machine <;> rfl

theorem lift {act : Action Value} (h : act.Plain) : (Traced.lift act).Calls S := by
  intro r outer hrun
  have hp : ComesTo S (fun _ => False) r (Traced.lift act r) := Accounts.lift h r
  have hpast := past_lift act r
  refine ⟨hp.env, ⟨none, hpast ▸ hrun⟩, hpast ▸ .start, fun v s hs => ?_⟩
  obtain ⟨_, _, ho⟩ := hp.raised v s hs
  exact ho

/-- An action of which no record is made, before a call. -/
theorem lift_bind {act : Action α} {f : α → Traced Value} (h : act.Plain) (hf : ∀ a, (f a).Calls S) :
    (Traced.lift act >>= f).Calls S := by
  intro r outer hrun
  have hp : ComesTo S (fun _ => False) r (Traced.lift act r) := Accounts.lift h r
  have hpast := past_lift act r
  cases hl : Traced.lift act r with
  | error e s =>
      rw [hl] at hp hpast
      rw [bind_error hl]
      refine ⟨hp.env, ⟨none, (congrArg running hpast).trans hrun⟩, ?_, ?_⟩
      · change Since _ r.past s.past
        rw [show s.past = r.past from hpast]
        exact .start
      · rintro v _ ⟨⟩
        obtain ⟨_, _, ho⟩ := hp.raised v _ rfl
        exact ho
  | ok a s =>
      rw [hl] at hp hpast
      rw [bind_ok hl]
      have hpast : s.past = r.past := hpast
      have hs := hf a s outer (hpast ▸ hrun)
      exact ⟨hs.env.trans hp.env, hs.level, hpast ▸ hs.moments, hs.unreturned⟩

/-- A moment that neither begins nor ends anything, before a call. -/
theorem note_bind {what : Happening} {t : Traced Value} (hrun : ∀ m past, running (⟨m, what⟩ :: past) = running past)
    (hno : ∀ s, what ≠ .executes s) (h : t.Calls S) : (Traced.note what >>= fun _ => t).Calls S := by
  intro r outer hnone
  rw [Traced.note_bind]
  have ht := h ⟨r.machine, ⟨r.machine, what⟩ :: r.past⟩ outer ((hrun _ _).trans hnone)
  exact ⟨ht.env, ht.level, .trans (.moment .start fun s hs => absurd hs (hno s)) ht.moments, ht.unreturned⟩

/-- A call whose value is passed over. -/
theorem bind_pure {t : Traced Value} (h : t.Calls S) (v : Value) : (t >>= fun _ => Pure.pure v).Calls S := by
  intro r outer hrun
  have ht := h r outer hrun
  cases hl : t r with
  | error e s =>
      rw [hl] at ht
      rw [bind_error hl]
      exact ⟨ht.env, ht.level, ht.moments, ht.unreturned⟩
  | ok a s =>
      rw [hl] at ht
      rw [bind_ok hl]
      exact ⟨ht.env, ht.level, ht.moments, nofun⟩

end Traced.Calls

theorem Traced.settle_eq (f : Closure) (v : Value) :
    settle f v = Traced.lift (if f.isInitializer then ownInstance f else Pure.pure v) := by
  unfold settle
  cases f.isInitializer <;> rfl

theorem Traced.settle_elementary (f : Closure) (v : Value) :
    (if f.isInitializer then ownInstance f else Pure.pure v : Action Value).Elementary := by
  cases f.isInitializer with
  | true => exact ownInstance_elementary f
  | false => exact .pure v

/-- Code that runs statements in order. -/
theorem Traced.runAll_accounts {S : Settings} {own : Stmt NodeId → Prop} {ex : Stmt NodeId → Traced Unit}
    (hx : ∀ s own, (∀ u ∈ s.parts, own u) → (ex s).Accounts S own) :
    ∀ body, (∀ u ∈ Stmt.partsAll body, own u) → (Traced.runAll ex body).Accounts S own
  | [], _ => .pure ()
  | s :: body, h =>
      .bind (hx s own fun u hu => h u (List.mem_append_left _ hu)) fun _ =>
        runAll_accounts hx body fun u hu => h u (List.mem_append_right _ hu)

section calls

variable {S : Settings} {fuel : Nat}

/-- How the body of a function ends decides how the call ends. -/
theorem Traced.invoke_eq (ex : Stmt NodeId → Traced Unit) (f : Closure) (values : List Value) (r : Recorder) :
    ∃ m env, m.env = r.machine.env ∧
      Traced.invoke ex f values r =
        conclude f (Traced.within env (Traced.runAll ex f.decl.body) ⟨m, ⟨r.machine, .enters f⟩ :: r.past⟩) := by
  refine ⟨{ r.machine with heap := (r.machine.heap.newFrame (bindParams f.decl.params values)).2 },
    r.machine.heap.frames.size :: f.env, rfl, ?_⟩
  have hstart : Traced.invoke ex f values r =
      (Traced.returning (Traced.within (r.machine.heap.frames.size :: f.env) (Traced.runAll ex f.decl.body)) >>=
        settle f)
        ⟨{ r.machine with heap := (r.machine.heap.newFrame (bindParams f.decl.params values)).2 },
          ⟨r.machine, .enters f⟩ :: r.past⟩ := rfl
  rw [hstart]
  change EStateM.bind (Traced.returning _) (settle f) _ = _
  unfold EStateM.bind Traced.returning
  generalize Traced.within _ _ _ = res
  cases res with
  | ok _ s => rfl
  | error e s => cases e <;> rfl

/-- The end of a call adds nothing to the history and leaves the chain as it is, and it is no `return`. -/
theorem Traced.conclude_ends (f : Closure) (res : EStateM.Result Exit Recorder Unit) :
    (endState (conclude f res)).past = (endState res).past ∧
      (endState (conclude f res)).machine.env = (endState res).machine.env ∧
      ∀ v s, conclude f res ≠ .error (.returned v) s := by
  have hsettle (v : Value) (s : Recorder) : (endState (settle f v s)).past = s.past ∧
      (endState (settle f v s)).machine.env = s.machine.env ∧ ∀ w n, settle f v s ≠ .error (.returned w) n := by
    rw [settle_eq]
    have hp : ComesTo .standard (fun _ => False) s _ := Accounts.lift (.elementary (settle_elementary f v)) s
    refine ⟨Calls.past_lift _ s, hp.env, fun w n hn => ?_⟩
    obtain ⟨_, _, ho⟩ := hp.raised w n hn
    exact ho
  cases res with
  | ok _ s => exact hsettle .nil s
  | error e s =>
      cases e with
      | returned v => exact hsettle v s
      | _ => exact ⟨rfl, rfl, nofun⟩

/-- A call whose body ends in a `return` settles on the value of its expression. -/
theorem ReturnValue.conclude {e : Option (Expr NodeId)} {k : Moment} {early : History}
    {value : EStateM.Result Exit Recorder Value} (h : ReturnValue S e k early value) (f : Closure) (env : Env) :
    Traced.conclude f (andThen env raise value) = andThen env (settle f) value := by
  cases value with
  | ok v s => rfl
  | error x s =>
      cases x with
      | returned v => exact absurd rfl (h.unreturned v s)
      | _ => rfl

/-- A function that is run in a call.  A `return` of its body ends it. -/
theorem Traced.invoke_calls (hx : ∀ s own, (∀ u ∈ s.parts, own u) → (Traced.exec S fuel s).Accounts S own) (f : Closure)
    (values : List Value) : (Traced.invoke (Traced.exec S fuel) f values).Calls S := by
  intro r outer hnone
  obtain ⟨m, env, hm, hcall⟩ := invoke_eq (Traced.exec S fuel) f values r
  have hbody : (Traced.runAll (Traced.exec S fuel) f.decl.body).Accounts S (· ∈ Stmt.partsAll f.decl.body) :=
    runAll_accounts hx _ fun _ hu => hu
  have hlevel : running (⟨r.machine, .enters f⟩ :: r.past) = some ⟨f, r⟩ :: outer := by
    change some (Entry.mk f r) :: (running r.past).tail = _
    rw [hnone]
    rfl
  have hb := hbody.within env ⟨m, ⟨r.machine, .enters f⟩ :: r.past⟩
  revert hb hcall
  generalize Traced.within env (Traced.runAll (Traced.exec S fuel) f.decl.body)
    ⟨m, ⟨r.machine, .enters f⟩ :: r.past⟩ = res
  intro hcall hb
  obtain ⟨hpast, henv, hunreturned⟩ := conclude_ends f res
  rw [← hcall] at hpast henv hunreturned
  refine ⟨henv.trans (hb.env.trans hm), ⟨some ⟨f, r⟩, hpast ▸ hb.level.trans hlevel⟩, ?_, hunreturned⟩
  rw [hpast]
  refine .trans (.moment .start fun _ hs => by cases hs) (hb.moments.imp fun k early hk s hs => ?_)
  rcases hk s hs with ⟨hrun, ho, hret⟩ | ⟨call, inner, hrun, ho, hret⟩
  · refine ⟨⟨f, r⟩, [], hrun.trans hlevel, ho, fun keyword e he => ?_⟩
    obtain ⟨value, hv, hres⟩ := hret keyword e he
    have hvalue : Traced.invoke (Traced.exec S fuel) f values r = andThen r.machine.env (settle f) value := by
      rw [hcall, hres, hm, hv.conclude]
    exact ⟨value, fuel, values, hv, hvalue, .inl ⟨rfl, hpast⟩⟩
  · refine ⟨call, inner ++ [some ⟨f, r⟩], ?_, ho, fun keyword e he => (hret keyword e he).imp fun _ => .inr⟩
    rw [hrun, hlevel, List.append_assoc]
    rfl

/-- A call expression runs no statement of the code that it stands in. -/
theorem Traced.attempt_accounts {own : Stmt NodeId → Prop} {t : Traced Value} (h : t.Calls S) (callee : Callable)
    (values : List Value) (closing : Lexeme) : (Traced.attempt S callee values closing t).Accounts S own := by
  intro r
  cases hlimit : S.callLimit.any (· ≤ r.machine.depth) with
  | true =>
      rw [Traced.attempt_full hlimit]
      exact Accounts.fail _ _ r
  | false =>
      rw [Traced.attempt_room hlimit]
      have ht := h ⟨{ r.machine with depth := r.machine.depth + 1 },
        ⟨r.machine, .calls callee values closing⟩ :: r.past⟩ (running r.past) rfl
      unfold Traced.calling
      revert ht
      generalize t ⟨{ r.machine with depth := r.machine.depth + 1 },
        ⟨r.machine, .calls callee values closing⟩ :: r.past⟩ = res
      intro ht
      obtain ⟨x, hx⟩ := ht.level
      have hpast : (endState (mapState (fun s => (⟨{ s.machine with depth := s.machine.depth - 1 },
          ⟨s.machine, .leaves⟩ :: s.past⟩ : Recorder)) res)).past =
            ⟨(endState res).machine, .leaves⟩ :: (endState res).past := by cases res <;> rfl
      refine ⟨?_, ?_, ?_, fun v s hs => ?_⟩
      · cases res <;> exact ht.env
      · rw [hpast]
        exact congrArg List.tail hx
      · rw [hpast]
        refine .moment (.trans (.moment .start (.quiet fun _ hs => by cases hs))
          (ht.moments.imp fun k early hk s hs => .inr ?_)) (.quiet fun _ hs => by cases hs)
        refine (hk s hs).imp fun inner past hp => ?_
        rw [hpast]
        rcases hp with ⟨-, rfl⟩ | hp
        · exact ⟨[], _, rfl⟩
        · exact hp.append [_]
      · cases res with
        | ok a n => exact nomatch hs
        | error e n =>
            cases hs
            exact absurd rfl (ht.unreturned v n)

end calls

end Lox
