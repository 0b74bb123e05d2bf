import Lox.Proofs.Resolving

/-! # Resolution accepts what keeps the rules

A walk through a program that keeps the rules on names, classes and returns finds no fault, so resolution
accepts the program (`resolveProgram_complete`).  What a walk does to the scopes on its way is known
already, since it finds no fault there. -/

namespace Lox

namespace Resolve

/-- `Clean Pre r`: begun in scopes that satisfy `Pre`, the walk `r` adds no fault. -/
def Clean (Pre : List Scope → Prop) (r : Resolve Unit) : Prop :=
  ∀ σ, Pre σ → ∀ ds fs, ∃ σ' ds', r ⟨σ, ds, fs⟩ = ((), ⟨σ', ds', fs⟩)

variable {Pre Pre' : List Scope → Prop} {M : List Scope → Distances → Prop} {r r' : Resolve Unit}

theorem Clean.imp (h : Clean Pre r) (hp : ∀ σ, Pre' σ → Pre σ) : Clean Pre' r := fun σ hσ =>
  h σ (hp σ hσ)

theorem Clean.bind (h : Clean Pre r) (hs : Spec Pre r M) (h' : ∀ new, Clean (M · new) r') :
    Clean Pre (r >>= fun _ => r') := by
  intro σ hσ ds fs
  obtain ⟨σ₁, ds₁, e₁⟩ := h σ hσ ds fs
  obtain ⟨σ₂, new, faults, e₂, hm⟩ := hs σ
  have he := (e₂ ds fs).symm.trans e₁
  have hf : faults ++ fs = fs := congrArg (fun p => p.2.faults) he
  have hσ₂ : σ₂ = σ₁ := congrArg (fun p => p.2.scopes) he
  obtain ⟨σ₃, ds₃, e₃⟩ := h' new σ₂ (hm hσ (List.append_left_eq_self.mp hf)) ds₁ fs
  refine ⟨σ₃, ds₃, ?_⟩
  change (match r ⟨σ, ds, fs⟩ with | (_, w) => r' w) = _
  rw [e₁, ← hσ₂]
  exact e₃

theorem Clean.pure : Clean Pre (pure ()) := fun σ _ ds _ => ⟨σ, ds, rfl⟩

theorem Clean.modifyInnermost (f : Scope → Scope) : Clean Pre (modifyInnermost f) := by
  intro σ _ ds fs
  cases σ with
  | nil => exact ⟨[], ds, rfl⟩
  | cons s outer => exact ⟨f s :: outer, ds, rfl⟩

theorem Clean.locate (ref : Reference NodeId) : Clean Pre (locate ref) := by
  intro σ _ ds fs
  exact ⟨σ, _, locate_mk ref σ ds fs⟩

theorem Clean.read {ref : Reference NodeId}
    (h : ∀ s outer, Pre (s :: outer) → s.isPending ref.name.text = false) : Clean Pre (read ref) := by
  intro σ hσ ds fs
  cases σ with
  | nil => exact @Clean.locate (fun _ => True) ref [] trivial ds fs
  | cons s outer =>
      have hrun : Resolve.read ref ⟨s :: outer, ds, fs⟩ = (if s.isPending ref.name.text then
          Resolve.fault .readInOwnInitializer ref.name >>= fun _ => Resolve.locate ref
          else Resolve.locate ref) ⟨s :: outer, ds, fs⟩ := rfl
      rw [hrun, h s outer hσ, if_neg Bool.false_ne_true]
      exact @Clean.locate (fun _ => True) ref (s :: outer) trivial ds fs

theorem Clean.declare {t : Lexeme} (h : ∀ s outer, Pre (s :: outer) → s.declares t.text = false) :
    Clean Pre (declare t) := by
  intro σ hσ ds fs
  cases σ with
  | nil => exact ⟨[], ds, rfl⟩
  | cons s outer =>
      change ∃ σ' ds', (if s.declares t.text then Resolve.fault .redeclared t
        else Resolve.modifyInnermost ((t.text, false) :: ·)) ⟨s :: outer, ds, fs⟩ = _
      rw [h s outer hσ, if_neg Bool.false_ne_true]
      exact ⟨_, ds, rfl⟩

theorem Clean.inScope (h : ∀ σ, Pre σ → Clean (· = [] :: σ) r) : Clean Pre (inScope r) := by
  intro σ hσ ds fs
  obtain ⟨σ', ds', e⟩ := h σ hσ _ rfl ds fs
  refine ⟨σ'.tail, ds', ?_⟩
  change (match r ⟨[] :: σ, ds, fs⟩ with
    | (_, w) => ((), ({ w with scopes := w.scopes.tail } : Walk))) = _
  rw [e]

end Resolve

open Resolve

/-! ### Expressions -/

section expressions

variable {ctx : Context} {σ : List Scope} {around : Surroundings} {own : Option Lexeme}

theorem Resolve.Clean.append {r r' : Resolve Unit} {us : List Use} (h : Clean (Before σ around own) r)
    (hs : Spec (Before σ around own) r (After σ around own us)) (h' : Clean (Before σ around own) r') :
    Clean (Before σ around own) (r >>= fun _ => r') :=
  h.bind hs fun _ => h'.imp fun _ ha => ha.toBefore

/-- A read that the rules allow. -/
theorem read_clean (ref : Reference NodeId) (h : Use.Allowed ⟨.read, ref, around, own⟩) :
    Clean (Before σ around own) (Resolve.read ref) :=
  .read fun s outer hb => (hb.sees.pending s outer rfl _).trans h

mutual

/-- An expression whose uses of names the rules allow. -/
theorem Expr.resolve_clean (hc : ctx.inClass = around.inClass) : ∀ e : Expr NodeId,
    (∀ u ∈ usesAt around own e.references, u.Allowed) → Clean (Before σ around own) (e.resolve ctx)
  | .literal _ _, _ => .pure
  | .group _ inner, ha => Expr.resolve_clean hc inner ha
  | .unary _ _ _ operand, ha => Expr.resolve_clean hc operand ha
  | .binary _ _ _ left right, ha => by
      rw [Expr.references, usesAt_append, List.forall_mem_append] at ha
      exact .append (Expr.resolve_clean hc left ha.1) (Expr.resolve_spec hc left)
        (Expr.resolve_clean hc right ha.2)
  | .logical _ _ _ left right, ha => by
      rw [Expr.references, usesAt_append, List.forall_mem_append] at ha
      exact .append (Expr.resolve_clean hc left ha.1) (Expr.resolve_spec hc left)
        (Expr.resolve_clean hc right ha.2)
  | .name ref, ha => read_clean ref (ha _ List.mem_cons_self)
  | .assign target value, ha => by
      rw [Expr.references, usesAt_append, List.forall_mem_append] at ha
      exact .append (Expr.resolve_clean hc value ha.1) (Expr.resolve_spec hc value) (.locate target)
  | .call _ callee _ arguments, ha => by
      rw [Expr.references, usesAt_append, List.forall_mem_append] at ha
      exact .append (Expr.resolve_clean hc callee ha.1) (Expr.resolve_spec hc callee)
        (Expr.resolveEach_clean hc arguments ha.2)
  | .get _ object _, ha => Expr.resolve_clean hc object ha
  | .set _ object _ value, ha => by
      rw [Expr.references, usesAt_append, List.forall_mem_append] at ha
      exact .append (Expr.resolve_clean hc value ha.1) (Expr.resolve_spec hc value)
        (Expr.resolve_clean hc object ha.2)
  | .this ref, ha => by
      have hne : ctx.inClass ≠ .outside := hc ▸ ha ⟨.this, ref, around, own⟩ List.mem_cons_self
      rw [Expr.resolve]
      cases hk : ctx.inClass with
      | outside => exact absurd hk hne
      | base => exact .locate ref
      | derived => exact .locate ref
  | .super ref method, ha => by
      have hd : around.inClass = .derived := ha ⟨.super, ref, around, own⟩ List.mem_cons_self
      rw [Expr.resolve, hc, hd]
      exact .locate ref

theorem Expr.resolveEach_clean (hc : ctx.inClass = around.inClass) : ∀ es : List (Expr NodeId),
    (∀ u ∈ usesAt around own (Expr.referencesEach es), u.Allowed) →
    Clean (Before σ around own) (Expr.resolveEach ctx es)
  | [], _ => .pure
  | e :: es, ha => by
      rw [Expr.referencesEach, usesAt_append, List.forall_mem_append] at ha
      exact .append (Expr.resolve_clean hc e ha.1) (Expr.resolve_spec hc e)
        (Expr.resolveEach_clean hc es ha.2)

end

end expressions

/-! ### Statements -/

/-- Uses of names that the rules allow. -/
abbrev AllAllowed (xs : List Placed) : Prop := ∀ u ∈ xs.flatMap Placed.uses, u.Allowed

theorem AllAllowed.left {xs xs' : List Placed} (h : AllAllowed (xs ++ xs')) : AllAllowed xs := by
  rw [AllAllowed, List.flatMap_append, List.forall_mem_append] at h
  exact h.1

theorem AllAllowed.right {xs xs' : List Placed} (h : AllAllowed (xs ++ xs')) : AllAllowed xs' := by
  rw [AllAllowed, List.flatMap_append, List.forall_mem_append] at h
  exact h.2

theorem AllAllowed.head {x : Placed} {xs : List Placed} (h : AllAllowed (x :: xs)) : AllAllowed [x] :=
  @AllAllowed.left [x] xs h

theorem AllAllowed.tail {x : Placed} {xs : List Placed} (h : AllAllowed (x :: xs)) : AllAllowed xs :=
  @AllAllowed.right [x] xs h

theorem Acyclic.left {heirs heirs' : List (Lexeme × Lexeme)} (h : Acyclic (heirs ++ heirs')) :
    Acyclic heirs := fun p hp => h p (List.mem_append_left _ hp)

theorem Acyclic.right {heirs heirs' : List (Lexeme × Lexeme)} (h : Acyclic (heirs ++ heirs')) :
    Acyclic heirs' := fun p hp => h p (List.mem_append_right _ hp)

section parts

variable {scopes scopes' : List (List Lexeme)} {heirs heirs' : List (Lexeme × Lexeme)}

theorem Neat.left (h : Neat (scopes ++ scopes') (heirs ++ heirs')) : Neat scopes heirs :=
  ⟨fun names hn => h.distinct names (List.mem_append_left _ hn), h.acyclic.left⟩

theorem Neat.right (h : Neat (scopes ++ scopes') (heirs ++ heirs')) : Neat scopes' heirs' :=
  ⟨fun names hn => h.distinct names (List.mem_append_right _ hn), h.acyclic.right⟩

theorem Neat.tail {names : List Lexeme} (h : Neat (names :: scopes) heirs) : Neat scopes heirs :=
  ⟨fun names hn => h.distinct names (List.mem_cons_of_mem _ hn), h.acyclic⟩

theorem Surroundings.Fresh.left {around : Surroundings} {t : Option Lexeme} {ts : List Lexeme}
    (h : around.Fresh (t.toList ++ ts)) : around.Fresh t.toList := by
  match around, h with
  | [], _ => trivial
  | .names _ _ :: _, ⟨hd, hb⟩ =>
      rw [Distinct, List.map_append] at hd
      exact ⟨(List.nodup_append.mp hd).1, fun t ht => hb t (List.mem_append_left _ ht)⟩
  | .this :: _, _ => trivial
  | .super :: _, _ => trivial

theorem Surroundings.Fresh.right {around : Surroundings} {t : Option Lexeme} {ts : List Lexeme}
    (h : around.Fresh (t.toList ++ ts)) : (around.declare? t).Fresh ts := by
  match around, t, h with
  | _, none, h => exact h
  | [], some _, _ => trivial
  | .names _ _ :: _, some t, ⟨hd, hb⟩ =>
      obtain ⟨ht, hts⟩ := List.nodup_cons.mp hd
      refine ⟨hts, fun t' ht' b hbm => ?_⟩
      rcases List.mem_cons.mp hbm with rfl | hbm
      · exact fun he => ht (he ▸ List.mem_map_of_mem ht')
      · exact hb t' (List.mem_cons_of_mem _ ht') b hbm
  | .this :: _, some _, _ => trivial
  | .super :: _, some _, _ => trivial

/-- The parameters of a function are new in its scope, and then the names that its body declares are. -/
theorem Distinct.fresh (around : Surroundings) {all params ts : List Lexeme} (h : Distinct (params ++ ts)) :
    Surroundings.Fresh (.names all [] :: around) params ∧
      Surroundings.Fresh (.names all params :: around) ts := by
  rw [Distinct, List.map_append, List.nodup_append] at h
  obtain ⟨hp, ht, hne⟩ := h
  exact ⟨⟨hp, fun _ _ _ hb => absurd hb List.not_mem_nil⟩, ht, fun t ht p hp =>
    hne _ (List.mem_map_of_mem hp) _ (List.mem_map_of_mem ht)⟩

variable {b : Bool} {free free' : Prop} {around : Surroundings} {t : Option Lexeme} {ts : List Lexeme}

theorem Tidy.left (h : Tidy b (free ∧ free') (scopes ++ scopes') (heirs ++ heirs') around
    (t.toList ++ ts)) : Tidy b free scopes heirs around t.toList :=
  ⟨h.toNeat.left, fun hb => (h.returns hb).1, h.fresh.left⟩

theorem Tidy.right (h : Tidy b (free ∧ free') (scopes ++ scopes') (heirs ++ heirs') around
    (t.toList ++ ts)) : Tidy b free' scopes' heirs' (around.declare? t) ts :=
  ⟨h.toNeat.right, fun hb => (h.returns hb).2, h.fresh.right⟩

end parts

section statements

variable {ctx : Context} {around around₁ : Surroundings} {xs : List Placed} {P : Prop}

theorem Resolve.Clean.walk {r r' : Resolve Unit} (h : Clean (Follows · around) r)
    (hs : Spec (Follows · around) r (Walked around₁ xs P)) (h' : Clean (Follows · around₁) r') :
    Clean (Follows · around) (r >>= fun _ => r') :=
  h.bind hs fun _ => h'.imp fun _ hw => hw.follows

/-- An expression that is no initializer. -/
theorem Expr.walk_clean (hc : ctx.inClass = around.inClass) (e : Expr NodeId)
    (ha : AllAllowed [⟨around, none, e⟩]) : Clean (Follows · around) (e.resolve ctx) := by
  rw [AllAllowed, List.flatMap_singleton] at ha
  exact fun σ hσ => Expr.resolve_clean hc e ha σ ⟨rfl, hσ.sees⟩

theorem Expr.walk?_clean (hc : ctx.inClass = around.inClass) (e : Option (Expr NodeId))
    (ha : AllAllowed (e.toList.map fun e => ⟨around, none, e⟩)) :
    Clean (Follows · around) (Expr.resolve? ctx e) := by
  cases e with
  | none => exact .pure
  | some e => exact Expr.walk_clean hc e ha

/-- A name that the scope around does not have yet. -/
theorem declare_clean (ho : around.Open) {t : Lexeme} (ht : around.Fresh [t]) :
    Clean (Follows · around) (declare t) := by
  refine .declare fun s outer hσ => ?_
  match around, ho, hσ, ht with
  | .names all before :: _, _, .cons hs _, ht =>
      rw [hs.declares]
      refine List.any_eq_false.mpr fun b hb => ?_
      simpa using ht.2 t List.mem_cons_self b hb

theorem introduce_clean (ho : around.Open) {t : Lexeme} (ht : around.Fresh [t]) :
    Clean (Follows · around) (introduce t) :=
  (declare_clean ho ht).bind (declare_spec ho t) fun _ => .modifyInnermost _

/-- A variable declaration. -/
theorem var_clean (hc : ctx.inClass = around.inClass) (ho : around.Open) {t : Lexeme}
    (ht : around.Fresh [t]) (e : Option (Expr NodeId))
    (ha : AllAllowed ((Stmt.var t e).expressions around)) :
    Clean (Follows · around) ((Stmt.var t e).resolve ctx) := by
  rw [Stmt.resolve]
  refine (declare_clean ho ht).bind (declare_spec ho t) fun new => ?_
  cases e with
  | none => exact Clean.modifyInnermost (·.define t.text)
  | some e =>
      rw [Stmt.expressions, Option.toList_some, List.map_singleton, AllAllowed,
        List.flatMap_singleton] at ha
      have he : Clean (fun σ => new = [] ∧ Pending t around σ) (e.resolve ctx) :=
        fun σ hσ => Expr.resolve_clean hc e ha σ ⟨rfl, hσ.2.sees⟩
      have hs : Spec (fun σ => new = [] ∧ Pending t around σ) (e.resolve ctx) fun _ _ => True := by
        intro σ
        obtain ⟨σ', new', faults, he, -⟩ := @Expr.resolve_spec ctx σ around none hc e σ
        exact ⟨σ', new', faults, he, fun _ _ => trivial⟩
      exact he.bind hs fun _ => .modifyInnermost _

/-- A walk in a scope of its own. -/
theorem Resolve.Clean.inside {e : Enclosure} {r : Resolve Unit} (he : Scope.Fits [] e)
    (h : Clean (Follows · (e :: around)) r) : Clean (Follows · around) (Resolve.inScope r) := by
  refine .inScope fun σ hσ => h.imp ?_
  rintro _ rfl
  exact .cons he hσ

/-- A walk in a scope of its own that has a name from the start. -/
theorem Resolve.Clean.insideWith {e : Enclosure} {n : String} {r : Resolve Unit}
    (he : Scope.Fits (Scope.define [] n) e) (h : Clean (Follows · (e :: around)) r) :
    Clean (Follows · around) (Resolve.inScope (Resolve.define n >>= fun _ => r)) := by
  refine .inScope fun σ hσ => Clean.bind (M := fun σ' _ => Follows σ' (e :: around))
    (.modifyInnermost _) (.modifyInnermost ?_) fun _ => h
  rintro _ rfl
  exact .cons he hσ

theorem params_clean (all : List Lexeme) (outer : Surroundings) : ∀ params before : List Lexeme,
    Surroundings.Fresh (.names all before :: outer) params →
    Clean (Follows · (.names all before :: outer)) (params.forM introduce)
  | [], _, _ => .pure
  | t :: params, before, hf =>
      (@introduce_clean (.names all before :: outer) trivial t
        (Surroundings.Fresh.left (t := some t) hf)).walk (introduce_walk (by trivial) t)
        (params_clean all outer params (t :: before) (Surroundings.Fresh.right (t := some t) hf))

/-- The superclass of a class, which is another one. -/
theorem inherit_clean {name : Lexeme} {superclass : Reference NodeId}
    (hn : superclass.name.text ≠ name.text) :
    Clean (Follows · (around.declare name)) (inherit name superclass) := by
  unfold inherit
  rw [if_neg hn]
  refine .read fun s outer hσ => ?_
  exact hσ.sees.pending s outer rfl _

end statements

section trees

mutual

/-- A walk through a statement that keeps the rules finds no fault. -/
theorem Stmt.resolve_clean : ∀ (s : Stmt NodeId) {ctx : Context} {around : Surroundings}, s.Formed →
    ctx.inClass = around.inClass → around.Open → AllAllowed (s.expressions around) →
    Tidy ctx.inFunction s.ReturnFree s.scopes s.heirs around s.declared?.toList →
    Clean (Follows · around) (s.resolve ctx)
  | .expression value, _, _, _, hc, _, ha, _ => Expr.walk_clean hc value ha
  | .print value, _, _, _, hc, _, ha, _ => Expr.walk_clean hc value ha
  | .var name initializer, _, _, _, hc, ho, ha, ht => var_clean hc ho ht.fresh initializer ha
  | .block body, ctx, around, hf, hc, _, ha, ht =>
      .inside (Scope.fits_names _) (Stmt.resolveAll_clean body hf hc trivial ha
        ⟨ht.toNeat.tail, ht.returns, ht.toNeat.distinct _ List.mem_cons_self, fun _ _ _ h => nomatch h⟩)
  | .ite condition yes none, _, around, ⟨_, hy, hd⟩, hc, ho, ha, ht => by
      have hyes := Stmt.resolve_clean yes hy hc ho (ha.tail)
        ⟨ht.toNeat, ht.returns, by rw [hd]; exact .nil _⟩
      exact (Expr.walk_clean hc condition (ha.head)).walk (Expr.walk hc condition) hyes
  | .ite condition yes (some no), _, around, ⟨_, ⟨hy, hd⟩, hn, hd'⟩, hc, ho, ha, ht => by
      have hrest := ha.tail
      have hyes := Stmt.resolve_clean yes hy hc ho hrest.left
        ⟨ht.toNeat.left, fun hb => (ht.returns hb).1, by rw [hd]; exact .nil _⟩
      have hno := Stmt.resolve_clean no hn hc ho hrest.right
        ⟨ht.toNeat.right, fun hb => (ht.returns hb).2, by rw [hd']; exact .nil _⟩
      exact (Expr.walk_clean hc condition (ha.head)).walk (Expr.walk hc condition)
        (hyes.walk (.branch hd (Stmt.resolve_spec yes hy hc ho)) hno)
  | .while condition body, _, around, ⟨_, hb, hd⟩, hc, ho, ha, ht => by
      have hbody := Stmt.resolve_clean body hb hc ho (ha.tail)
        ⟨ht.toNeat, ht.returns, by rw [hd]; exact .nil _⟩
      exact (Expr.walk_clean hc condition (ha.head)).walk (Expr.walk hc condition) hbody
  | .function decl, _, around, hf, hc, ho, ha, ht =>
      (introduce_clean ho ht.fresh).walk (introduce_walk ho decl.name) (FunDecl.resolve_clean decl hf.2
        (hc.trans (around.inClass_declare? (some decl.name)).symm) ha ht.toNeat)
  | .ret keyword value, ctx, _, _, hc, _, ha, ht => by
      rw [Stmt.resolve]
      cases hi : ctx.inFunction with
      | true => exact Expr.walk?_clean hc value ha
      | false => exact absurd (ht.returns hi) id
  | .cls name none methods, ctx, around, hf, _, ho, ha, ht => by
      have hm := @FunDecl.resolveEach_clean methods { ctx with inClass := .base }
        (.this :: around.declare name) hf.2.2
        (Surroundings.inClass_this (ho.declare? (some name))).symm ha ht.toNeat
      exact (introduce_clean ho ht.fresh).walk (introduce_walk ho name) (.insideWith Scope.fits_this hm)
  | .cls name (some superclass) methods, ctx, around, hf, _, ho, ha, ht => by
      have hm := @FunDecl.resolveEach_clean methods { ctx with inClass := .derived }
        (.this :: .super :: around.declare name) hf.2.2 rfl (ha.tail)
        ⟨ht.toNeat.distinct, fun p hp => ht.toNeat.acyclic p (List.mem_cons_of_mem _ hp)⟩
      have hs := Clean.insideWith Scope.fits_super (.insideWith Scope.fits_this hm)
      have hn := ht.toNeat.acyclic (name, superclass.name) List.mem_cons_self
      exact (introduce_clean ho ht.fresh).walk (introduce_walk ho name)
        ((inherit_clean hn).walk (inherit_walk name superclass) hs)

theorem Stmt.resolveAll_clean : ∀ (body : List (Stmt NodeId)) {ctx : Context} {around : Surroundings},
    Stmt.FormedAll body → ctx.inClass = around.inClass → around.Open →
    AllAllowed (Stmt.expressionsAll around body) →
    Tidy ctx.inFunction (Stmt.ReturnFreeAll body) (Stmt.scopesAll body) (Stmt.heirsAll body) around
      (Stmt.declarations body) → Clean (Follows · around) (Stmt.resolveAll ctx body)
  | [], _, _, _, _, _, _, _ => .pure
  | s :: body, _, around, ⟨hs, hb⟩, hc, ho, ha, ht => by
      rw [Stmt.declarations_cons] at ht
      exact (Stmt.resolve_clean s hs hc ho ha.left ht.left).walk (Stmt.resolve_spec s hs hc ho)
        (Stmt.resolveAll_clean body hb (hc.trans (around.inClass_declare? s.declared?).symm)
          (ho.declare? s.declared?) ha.right ht.right)

theorem FunDecl.resolve_clean : ∀ (decl : FunDecl NodeId) {ctx : Context} {around : Surroundings},
    decl.Formed → ctx.inClass = around.inClass → AllAllowed (decl.expressions around) →
    Neat decl.scopes decl.heirs → Clean (Follows · around) (decl.resolve ctx)
  | .mk _ params body, ctx, around, ⟨_, hb⟩, hc, ha, hn => by
      obtain ⟨hp, ht⟩ := Distinct.fresh around (hn.distinct _ List.mem_cons_self)
      have hparams := params_clean (params ++ Stmt.declarations body) around params [] hp
      have hbody := @Stmt.resolveAll_clean body { ctx with inFunction := true }
        (.names (params ++ Stmt.declarations body) params :: around) hb hc trivial ha
        ⟨hn.tail, nofun, ht⟩
      exact .inside (Scope.fits_names _) (hparams.walk (params_walk _ around params [])
        (hbody.imp fun _ h => params_follow h))

theorem FunDecl.resolveEach_clean : ∀ (decls : List (FunDecl NodeId)) {ctx : Context}
    {around : Surroundings}, FunDecl.FormedEach decls → ctx.inClass = around.inClass →
    AllAllowed (FunDecl.expressionsEach around decls) →
    Neat (FunDecl.scopesEach decls) (FunDecl.heirsEach decls) →
    Clean (Follows · around) (FunDecl.resolveEach ctx decls)
  | [], _, _, _, _, _, _ => .pure
  | decl :: decls, _, _, ⟨hd, hs⟩, hc, ha, hn =>
      (FunDecl.resolve_clean decl hd hc ha.left hn.left).walk (FunDecl.resolve_spec decl hd hc)
        (FunDecl.resolveEach_clean decls hs hc ha.right hn.right)

end

end trees

/-! ### Whole programs -/

theorem Resolve.outcome_of_clean {r : Resolve Unit} {Post : List Scope → Distances → Prop}
    (hc : Clean (Follows · []) r) (hs : Spec (Follows · []) r Post) :
    ∃ σ ds, r.outcome = .ok ds ∧ Post σ ds := by
  obtain ⟨σ, new, faults, he, hp⟩ := hs []
  obtain ⟨σ', ds', e⟩ := hc [] .nil [] []
  have hf : faults ++ [] = [] := congrArg (fun p => p.2.faults) ((he [] []).symm.trans e)
  rw [List.append_nil] at hf
  refine ⟨σ, new, ?_, hp .nil hf⟩
  unfold Resolve.outcome
  change (match r ⟨[], [], []⟩ with
    | (_, w) => if w.faults.isEmpty then Except.ok w.distances else .error w.faults.reverse) = _
  rw [he, hf, List.append_nil]
  rfl

/-- Resolution accepts every program that keeps the rules. -/
theorem resolveProgram_complete {body : List (Stmt NodeId)} {ds : Distances} (h : Accepted body ds) :
    resolveProgram body = .ok ds := by
  have hfresh : Surroundings.Fresh [] (Stmt.declarations body) := trivial
  have hclean := @Stmt.resolveAll_clean body .top [] h.formed rfl trivial h.allowed
    ⟨h.neat, fun _ => h.returns, hfresh⟩
  obtain ⟨σ, ds', ho, hw⟩ := Resolve.outcome_of_clean hclean
    (@Stmt.resolveAll_spec body .top [] h.formed rfl trivial)
  rw [show resolveProgram body = .ok ds' from ho, hw.found.distances, h.distances]
  rfl

theorem resolveProgram_eq_ok_iff {body : List (Stmt NodeId)} {ds : Distances}
    (hf : Stmt.FormedAll body) : resolveProgram body = .ok ds ↔ Accepted body ds :=
  ⟨resolveProgram_ok hf, resolveProgram_complete⟩

end Lox
