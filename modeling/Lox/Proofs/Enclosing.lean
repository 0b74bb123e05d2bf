import Lox.Proofs.Cutoffs
import Lox.Proofs.Exactness

/-! # What encloses a piece of code

Code stands at a path in its program, and runs in a scope chain.  The one mirrors the other: each frame of
the chain was made by what the path names there, a block that was run, a function that was entered, a method
that was bound or a class that was made with a superclass (`Enclosed`).  The innermost method of the path is
one activation of it, and the distances at which resolution finds `this` and `super` are those of the two
frames that this method was bound and its class was made in (`Enclosed.frames`). -/

namespace Lox

/-! ### Sites of formed programs -/

/-- A name that a program may declare. -/
def Ordinary (n : String) : Prop := n ≠ "this" ∧ n ≠ "super"

theorem Lexeme.IsName.ordinary {t : Lexeme} (h : t.IsName) : Ordinary t.text := ⟨h.ne_this, h.ne_super⟩

namespace Path

/-- A place where code may stand: in a class only within a method of it, and where no scope but that of a
class has the names `this` and `super`. -/
inductive Plain : Path → Prop
  | top : Plain []
  | block {path : Path} {before : List String} (hb : ∀ n ∈ before, Ordinary n) (h : Plain path) :
      Plain (.block before :: path)
  | function {path : Path} {decl : FunDecl NodeId} {before : List String} (hb : ∀ n ∈ before, Ordinary n)
      (h : Plain path) : Plain (.function decl before :: path)
  | method {path : Path} {decl : FunDecl NodeId} {before : List String} (hb : ∀ n ∈ before, Ordinary n)
      (name : Lexeme) (superclass : Option (Reference NodeId)) (methods : List (FunDecl NodeId))
      (h : Plain path) : Plain (.function decl before :: .cls name superclass methods :: path)

theorem Plain.declare {path : Path} (h : path.Plain) {n : String} (hn : Ordinary n) :
    (path.declare n).Plain := by
  have hcons {before : List String} (hb : ∀ m ∈ before, Ordinary m) : ∀ m ∈ n :: before, Ordinary m :=
    List.forall_mem_cons.mpr ⟨hn, hb⟩
  cases h with
  | top => exact .top
  | block hb h => exact .block (hcons hb) h
  | function hb h => exact .function (hcons hb) h
  | method hb name superclass methods h => exact .method (hcons hb) name superclass methods h

theorem Plain.declareAll {path : Path} (h : path.Plain) {names : List Lexeme} (hn : ∀ t ∈ names, t.IsName) :
    (path.declareAll names).Plain := by
  induction names generalizing path with
  | nil => exact h
  | cons t names ih =>
      obtain ⟨ht, hn⟩ := List.forall_mem_cons.mp hn
      exact ih (h.declare ht.ordinary) hn

end Path

/-- The names of a site are spelled as they should be. -/
def Mention.Spelled : Mention → Prop
  | declares name => name.IsName
  | uses kind ref _ => kind.Spells ref.name
  | inherits _ _ | returns _ => True

/-- A site as there are in what the grammar yields. -/
structure Site.Formed (site : Site) : Prop where
  path : site.path.Plain
  mention : site.mention.Spelled

section formed

variable {path : Path} {own : Option String}

theorem Expr.Spelled.sites {e : Expr NodeId} (h : e.Spelled) (hp : path.Plain) :
    ∀ site ∈ usesSites path own e.references, site.Formed := by
  intro site hs
  obtain ⟨u, hu, rfl⟩ := List.mem_map.mp hs
  exact ⟨hp, h u hu⟩

theorem Expr.Spelled.sites? {e : Option (Expr NodeId)} (h : ∀ v ∈ e, v.Spelled) (hp : path.Plain) :
    ∀ site ∈ e.toList.flatMap fun v => usesSites path own v.references, site.Formed := by
  intro site hs
  obtain ⟨v, hv, hs⟩ := List.mem_flatMap.mp hs
  exact (h v (Option.mem_toList.mp hv)).sites hp site hs

theorem declaresSites_formed {names : List Lexeme} (hn : ∀ t ∈ names, t.IsName) (hp : path.Plain) :
    ∀ site ∈ declaresSites path names, site.Formed := by
  induction names generalizing path with
  | nil => exact nofun
  | cons t names ih =>
      obtain ⟨ht, hn⟩ := List.forall_mem_cons.mp hn
      exact List.forall_mem_cons.mpr ⟨⟨hp, ht⟩, ih hn (hp.declare ht.ordinary)⟩

/-- The names that a formed statement declares in its scope. -/
theorem Stmt.Formed.introduced : ∀ {s : Stmt NodeId}, s.Formed → ∀ t ∈ s.introduced, t.IsName
  | .expression _, _ | .print _, _ | .block _, _ | .ret _ _, _ => nofun
  | .var _ _, h | .function _, h | .cls _ _ _, h => by
      rintro t ht
      rw [List.mem_singleton.mp ht]
      exact h.1
  | .ite _ _ none, h => h.2.1.introduced
  | .ite _ _ (some _), h => List.forall_mem_append.mpr ⟨h.2.1.1.introduced, h.2.2.1.introduced⟩
  | .while _ _, h => h.2.1.introduced

mutual

/-- The sites of a formed statement are formed. -/
theorem Stmt.Formed.sites : ∀ {s : Stmt NodeId} {path : Path}, s.Formed → path.Plain →
    ∀ site ∈ s.sites path, site.Formed
  | .expression _, _, h, hp => Expr.Spelled.sites h hp
  | .print _, _, h, hp => Expr.Spelled.sites h hp
  | .var _ _, _, h, hp => List.forall_mem_cons.mpr
      ⟨⟨hp, h.1⟩, Expr.Spelled.sites? h.2 (hp.declare h.1.ordinary)⟩
  | .block _, _, h, hp => Stmt.FormedAll.sites h (.block (List.forall_mem_nil _) hp)
  | .ite _ _ none, _, h, hp => List.forall_mem_append.mpr ⟨h.1.sites hp, h.2.1.sites hp⟩
  | .ite _ _ (some _), _, h, hp => List.forall_mem_append.mpr ⟨h.1.sites hp,
      List.forall_mem_append.mpr ⟨h.2.1.1.sites hp, h.2.2.1.sites (hp.declareAll h.2.1.1.introduced)⟩⟩
  | .while _ _, _, h, hp => List.forall_mem_append.mpr ⟨h.1.sites hp, h.2.1.sites hp⟩
  | .function _, _, h, hp => List.forall_mem_cons.mpr
      ⟨⟨hp, h.1⟩, FunDecl.Formed.sites h.2 (.function (List.forall_mem_nil _) (hp.declare h.1.ordinary))⟩
  | .ret _ _, _, h, hp => List.forall_mem_cons.mpr ⟨⟨hp, trivial⟩, Expr.Spelled.sites? h hp⟩
  | .cls name none methods, _, h, hp => List.forall_mem_cons.mpr ⟨⟨hp, h.1⟩,
      FunDecl.FormedEach.sites h.2.2 fun _ =>
        .method (List.forall_mem_nil _) name none methods (hp.declare h.1.ordinary)⟩
  | .cls name (some superclass) methods, path, h, hp => by
      have hn : (path.declare name.text).Plain := hp.declare h.1.ordinary
      have hs : (Expr.name superclass).Spelled := fun u hu => by
        rw [List.mem_singleton.mp hu]
        exact h.2.1 superclass rfl
      exact List.forall_mem_cons.mpr ⟨⟨hp, h.1⟩, List.forall_mem_cons.mpr ⟨⟨hn, trivial⟩,
        List.forall_mem_append.mpr ⟨hs.sites hn,
          FunDecl.FormedEach.sites h.2.2 fun _ =>
            .method (List.forall_mem_nil _) name (some superclass) methods hn⟩⟩⟩

theorem Stmt.FormedAll.sites : ∀ {body : List (Stmt NodeId)} {path : Path}, Stmt.FormedAll body → path.Plain →
    ∀ site ∈ Stmt.sitesAll path body, site.Formed
  | [], _, _, _ => nofun
  | _ :: _, _, h, hp => List.forall_mem_append.mpr
      ⟨h.1.sites hp, Stmt.FormedAll.sites h.2 (hp.declareAll h.1.introduced)⟩

theorem FunDecl.Formed.sites : ∀ {decl : FunDecl NodeId} {path : Path}, decl.Formed →
    Path.Plain (.function decl [] :: path) → ∀ site ∈ decl.sites path, site.Formed
  | .mk _ _ _, _, h, hp => List.forall_mem_append.mpr
      ⟨declaresSites_formed h.1 hp, Stmt.FormedAll.sites h.2 (hp.declareAll h.1)⟩

theorem FunDecl.FormedEach.sites : ∀ {decls : List (FunDecl NodeId)} {path : Path}, FunDecl.FormedEach decls →
    (∀ decl, Path.Plain (.function decl [] :: path)) → ∀ site ∈ FunDecl.sitesEach path decls, site.Formed
  | [], _, _, _ => nofun
  | decl :: _, _, h, hp => List.forall_mem_append.mpr
      ⟨FunDecl.Formed.sites h.1 (hp decl), FunDecl.FormedEach.sites h.2 hp⟩

end

end formed

/-! ### Activations -/

/-- A class statement that was run: what it says, the class that its superclass expression yielded, and the
moment at which the class was made. -/
structure Making where
  name : Lexeme
  superclass : Option (Reference NodeId)
  methods : List (FunDecl NodeId)
  parent : Option Class
  moment : Moment

namespace Making

/-- The class around the methods. -/
def construct (c : Making) : Construct := .cls c.name c.superclass c.methods

/-- The scope chain of the methods: that of the class statement and, if there is a superclass, a frame that
binds `super`. -/
def chain (c : Making) : Env :=
  match c.parent with
  | none => c.moment.machine.env
  | some _ => c.moment.frame :: c.moment.machine.env

/-- The class that the superclass expression yields at the moment when the class is made. -/
def Inherits (c : Making) : Prop :=
  match c.superclass with
  | none => c.parent = none
  | some ref => ∃ k, c.parent = some k ∧
      Action.read .byDistance ref c.moment.machine = .ok (.cls k) c.moment.machine

/-- The class statement was run. -/
structure Happened (past : History) (c : Making) : Prop where
  mem : c.moment ∈ past
  what : c.moment.what = .makes c.name c.superclass c.methods c.parent
  inherits : c.Inherits

/-- A method of the class, as the class statement made it. -/
structure Has (c : Making) (method : Closure) : Prop where
  decl : method.decl ∈ c.methods
  env : method.env = c.chain

theorem Happened.mono {past past' : History} (h : past ⊆ past') {c : Making} (hc : c.Happened past) :
    c.Happened past' := ⟨h hc.mem, hc.what, hc.inherits⟩

/-- There is a class to inherit from if the statement names one. -/
theorem Inherits.isSome {c : Making} (h : c.Inherits) : c.parent.isSome = c.superclass.isSome := by
  unfold Inherits at h
  cases hs : c.superclass with
  | none =>
      rw [hs] at h
      rw [show c.parent = none from h]
      rfl
  | some ref =>
      rw [hs] at h
      obtain ⟨k, hk, -⟩ := h
      rw [hk]
      rfl

end Making

/-- An activation of a method: the class statement that made the method, the object that it was bound to,
and the moments at which it was bound and entered. -/
structure Activation where
  origin : Making
  method : Closure
  object : Value
  bound : Moment
  entered : Moment

namespace Activation

/-- The scope chain of the body. -/
def chain (x : Activation) : Env := x.entered.frame :: x.bound.frame :: x.method.env

/-- The method was made, bound to the object, and entered. -/
structure Happened (past : History) (x : Activation) : Prop where
  origin : x.origin.Happened past
  method : x.origin.Has x.method
  bound : x.bound ∈ past
  binds : x.bound.what = .binds x.method x.object
  entered : x.entered ∈ past
  enters : x.entered.what = .enters { x.method with env := x.bound.frame :: x.method.env }

theorem Happened.mono {past past' : History} (h : past ⊆ past') {x : Activation} (hx : x.Happened past) :
    x.Happened past' where
  origin := hx.origin.mono h
  method := hx.method
  bound := h hx.bound
  binds := hx.binds
  entered := h hx.entered
  enters := hx.enters

end Activation

/-! ### Chains -/

/-- Code at a path runs in a scope chain, after the moments of the past: what made the frames of the chain,
and the activation of the innermost method around the code, if there is one.  It makes no difference to a
chain which names are declared before the code. -/
inductive Enclosed (past : History) : Path → Env → Option Activation → Prop
  | top : Enclosed past [] [globalFrame] none
  | block {path : Path} {x : Option Activation} {k : Moment} {body : List (Stmt NodeId)} (before : List String)
      (h : Enclosed past path k.machine.env x) (hk : k ∈ past) (hwhat : k.what = .executes (.block body)) :
      Enclosed past (.block before :: path) (k.frame :: k.machine.env) x
  | function {path : Path} {x : Option Activation} {k : Moment} {f : Closure} (before : List String)
      (h : Enclosed past path f.env x) (hk : k ∈ past) (hwhat : k.what = .enters f) :
      Enclosed past (.function f.decl before :: path) (k.frame :: f.env) x
  | method {path : Path} {outer : Option Activation} {x : Activation} (before : List String)
      (h : Enclosed past path x.origin.moment.machine.env outer) (hx : x.Happened past) :
      Enclosed past (.function x.method.decl before :: x.origin.construct :: path) x.chain (some x)

namespace Enclosed

variable {past past' : History} {path : Path} {env : Env} {x : Option Activation}

theorem mono (hsub : past ⊆ past') (h : Enclosed past path env x) : Enclosed past' path env x := by
  induction h with
  | top => exact .top
  | block before _ hk hwhat ih => exact .block before ih (hsub hk) hwhat
  | function before _ hk hwhat ih => exact .function before ih (hsub hk) hwhat
  | method before _ hx ih => exact .method before ih (hx.mono hsub)

theorem declare (h : Enclosed past path env x) (n : String) : Enclosed past (path.declare n) env x := by
  cases h with
  | top => exact .top
  | block before h hk hwhat => exact .block (n :: before) h hk hwhat
  | function before h hk hwhat => exact .function (n :: before) h hk hwhat
  | method before h hx => exact .method (n :: before) h hx

theorem declareAll (h : Enclosed past path env x) (names : List Lexeme) :
    Enclosed past (path.declareAll names) env x := by
  induction names generalizing path with
  | nil => exact h
  | cons t names ih => exact ih (h.declare t.text)

/-- The class around the code is that of the innermost method. -/
theorem hasSuperclass? (h : Enclosed past path env x) :
    path.hasSuperclass? = x.map (·.origin.superclass.isSome) := by
  induction h with
  | top => rfl
  | block _ _ _ _ ih => exact ih
  | function _ _ _ _ ih => exact ih
  | method _ _ _ => rfl

end Enclosed

namespace Path

variable {path : Path} {before : List String} {n : String}

theorem distance?_block (hn : n ∉ before) :
    distance? (.block before :: path) n = (path.distance? n).map (· + 1) := by
  change List.findIdx? _ (before :: path.scopes) = _
  rw [List.findIdx?_cons, if_neg (by simpa using hn)]
  rfl

theorem distance?_function (decl : FunDecl NodeId) (hn : n ∉ before) :
    distance? (.function decl before :: path) n = (path.distance? n).map (· + 1) := distance?_block hn

theorem distance?_this (name : Lexeme) (superclass : Option (Reference NodeId)) (methods : List (FunDecl NodeId)) :
    distance? (.cls name superclass methods :: path) "this" = some 0 := by
  cases superclass <;> rfl

theorem distance?_super (name : Lexeme) (superclass : Reference NodeId) (methods : List (FunDecl NodeId)) :
    distance? (.cls name (some superclass) methods :: path) "super" = some 1 := rfl

end Path

/-- Resolution finds `this` where the innermost method around the code was bound, and `super` where the class
of this method was made, which is one scope further out. -/
theorem Enclosed.frames {past : History} {path : Path} {env : Env} {x : Activation}
    (h : Enclosed past path env (some x)) (hp : path.Plain) :
    ∃ d, path.distance? "this" = some d ∧ env[d]? = some x.bound.frame ∧
      (x.origin.parent.isSome → path.distance? "super" = some (d + 1) ∧
        env[d + 1]? = some x.origin.moment.frame) := by
  generalize hy : some x = y at h
  induction h with
  | top => exact nomatch hy
  | block before h _ _ ih =>
      cases hp with
      | block hb hp =>
          obtain ⟨d, hd, he, hsuper⟩ := ih hp hy
          refine ⟨d + 1, ?_, he, fun hc => ⟨?_, (hsuper hc).2⟩⟩
          · rw [Path.distance?_block fun hm => (hb _ hm).1 rfl, hd, Option.map_some]
          · rw [Path.distance?_block fun hm => (hb _ hm).2 rfl, (hsuper hc).1, Option.map_some]
  | function before h _ _ ih =>
      cases hp with
      | function hb hp =>
          obtain ⟨d, hd, he, hsuper⟩ := ih hp hy
          refine ⟨d + 1, ?_, he, fun hc => ⟨?_, (hsuper hc).2⟩⟩
          · rw [Path.distance?_function _ fun hm => (hb _ hm).1 rfl, hd, Option.map_some]
          · rw [Path.distance?_function _ fun hm => (hb _ hm).2 rfl, (hsuper hc).1, Option.map_some]
      | method => exact nomatch h
  | @method path outer x' before _ hx =>
      cases hy
      have hb : ∀ n ∈ before, Ordinary n := by cases hp <;> assumption
      refine ⟨1, ?_, rfl, fun hc => ⟨?_, ?_⟩⟩
      · rw [Path.distance?_function _ fun hm => (hb _ hm).1 rfl, Making.construct, Path.distance?_this,
          Option.map_some]
      · rw [hx.origin.inherits.isSome] at hc
        obtain ⟨ref, href⟩ := Option.isSome_iff_exists.mp hc
        rw [Path.distance?_function _ fun hm => (hb _ hm).2 rfl, Making.construct, href, Path.distance?_super,
          Option.map_some]
      · obtain ⟨c, hc⟩ := Option.isSome_iff_exists.mp hc
        unfold Activation.chain
        rw [hx.method.env, Making.chain, hc]
        rfl

end Lox
