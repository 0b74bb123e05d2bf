import Lox.Proofs.Lookups

/-! # Links that grow

Programs that match go on matching when the links allow more (`Links.Le`), and so do the values and heaps
that hold their code (`World.Good.grow`).  Two comparisons are so related when the tables of the second
have the same entries at all numbers that the first one knows, and it allows the same and more
(`Comparison.Extends`).

Heaps that match are the same up to whatever the links tell apart in code (`World.Good.mapDecl_eq`). -/

namespace Lox

/-- What the links `U` allow, the links `V` allow. -/
structure Links.Le (U V : Links) : Prop where
  read : ∀ {Γ p r r'}, U.read Γ p r r' → V.read Γ p r r'
  write : ∀ {Γ p r r'}, U.write Γ p r r' → V.write Γ p r r'
  super : ∀ {Γ r r' l l'}, U.site r.id l r'.id l' → U.super Γ r r' → V.super Γ r r'
  site : ∀ {i l i' l'}, U.site i l i' l' → V.site i l i' l'
  decl : ∀ {d d'}, U.decl d d' → V.decl d d'
  renames : ∀ {twin}, U.renames twin → V.renames twin

section links

variable {U V : Links}

theorem Links.Allows.grow (h : U.Le V) {declared : List String} {twin : String → String}
    (ha : U.Allows declared twin) : V.Allows declared twin := ⟨h.renames ha.renames, ha.injective⟩

theorem Role.Proper.grow (h : U.Le V) {r : Role} (hr : r.Proper U) : r.Proper V := by
  cases r with
  | names declared twin => exact Links.Allows.grow h hr
  | _ => trivial

mutual

theorem MatchExpr.grow (h : U.Le V) {Γ : Levels} {p : Option String} :
    ∀ {e e' : Expr NodeId}, MatchExpr U Γ p e e' → MatchExpr V Γ p e e'
  | _, _, .literal i i' v => .literal i i' v
  | _, _, .group i i' he => .group i i' (he.grow h)
  | _, _, .unary op ht he => .unary op (h.site ht) (he.grow h)
  | _, _, .binary op ht ha hb => .binary op (h.site ht) (ha.grow h) (hb.grow h)
  | _, _, .logical i i' op t t' ha hb => .logical i i' op t t' (ha.grow h) (hb.grow h)
  | _, _, .name hr => .name (h.read hr)
  | _, _, .assign hr he => .assign (h.write hr) (he.grow h)
  | _, _, .call ht hf ha => .call (h.site ht) (hf.grow h) (ha.grow h)
  | _, _, .get hn ht he => .get hn (h.site ht) (he.grow h)
  | _, _, .set hn ht ha hb => .set hn (h.site ht) (ha.grow h) (hb.grow h)
  | _, _, .this hr => .this (h.read hr)
  | _, _, .super hn ht hs => .super hn (h.site ht) (h.super ht hs)

theorem MatchEach.grow (h : U.Le V) {Γ : Levels} {p : Option String} :
    ∀ {es es' : List (Expr NodeId)}, MatchEach U Γ p es es' → MatchEach V Γ p es es'
  | _, _, .nil => .nil
  | _, _, .cons he hes => .cons (he.grow h) (hes.grow h)

end

theorem MatchExpr?.grow (h : U.Le V) {Γ : Levels} {p : Option String} {e e' : Option (Expr NodeId)}
    (he : MatchExpr? U Γ p e e') : MatchExpr? V Γ p e e' := by
  cases he with
  | none => exact .none
  | some he => exact .some (he.grow h)

mutual

theorem MatchStmt.grow (h : U.Le V) : ∀ {b : Bool} {Γ Γ' : Levels} {s s' : Stmt NodeId},
    MatchStmt U b Γ s s' Γ' → MatchStmt V b Γ s s' Γ'
  | _, _, _, _, _, .expression he => .expression (he.grow h)
  | _, _, _, _, _, .print he => .print (he.grow h)
  | _, _, _, _, _, .var hd he => .var hd (he.grow h)
  | _, _, _, _, _, .block hp hs => .block (hp.grow h) (hs.grow h)
  | _, _, _, _, _, .ite hc hy => .ite (hc.grow h) (hy.grow h)
  | _, _, _, _, _, .iteElse hc hy hn => .iteElse (hc.grow h) (hy.grow h) (hn.grow h)
  | _, _, _, _, _, .while hc hb => .while (hc.grow h) (hb.grow h)
  | _, _, _, _, _, .function hd hf => .function hd (hf.grow h)
  | _, _, _, _, _, .ret t t' he => .ret t t' (he.grow h)
  | _, _, _, _, _, .base hn hd hm => .base hn hd (hm.grow h)
  | _, _, _, _, _, .derived hn hd hr hm => .derived hn hd (h.read hr) (hm.grow h)

theorem MatchStmts.grow (h : U.Le V) : ∀ {b : Bool} {Γ Γ' : Levels} {ss ss' : List (Stmt NodeId)},
    MatchStmts U b Γ ss ss' Γ' → MatchStmts V b Γ ss ss' Γ'
  | _, _, _, _, _, .nil b Γ => .nil b Γ
  | _, _, _, _, _, .cons hs hss => .cons (hs.grow h) (hss.grow h)

theorem MatchFun.grow (h : U.Le V) : ∀ {Γ : Levels} {d d' : FunDecl NodeId},
    MatchFun U Γ d d' → MatchFun V Γ d d'
  | _, _, _, .mk hn hu hp hd ht hb => .mk hn (h.decl hu) (hp.grow h) hd ht (hb.grow h)

theorem MatchFuns.grow (h : U.Le V) : ∀ {Γ : Levels} {ds ds' : List (FunDecl NodeId)},
    MatchFuns U Γ ds ds' → MatchFuns V Γ ds ds'
  | _, _, _, .nil Γ => .nil Γ
  | _, _, _, .cons hd hds => .cons (hd.grow h) (hds.grow h)

end

/-! ### Values and heaps -/

variable {w : World}

namespace World

theorem ClosureMatch.grow (h : U.Le V) {c c' : Closure} (hc : ClosureMatch U w c c') :
    ClosureMatch V w c c' := by
  obtain ⟨he, hi, Γ, hch, hm, ht⟩ := hc
  exact ⟨he, hi, Γ, hch, hm.grow h, ht⟩

theorem MethodMatch.grow (h : U.Le V) {c c' : Closure} (hc : MethodMatch U w c c') :
    MethodMatch V w c c' := by
  obtain ⟨he, hi, Γ, hch, hm⟩ := hc
  exact ⟨he, hi, Γ, hch, hm.grow h⟩

theorem BodyMatch.grow (h : U.Le V) {b b' : ClassBody} (hb : BodyMatch U w b b') : BodyMatch V w b b' :=
  ⟨hb.id, hb.name, hb.methods.imp fun _ _ hp => ⟨hp.1, hp.2.grow h⟩⟩

theorem ClassMatch.grow (h : U.Le V) {c c' : Class} (hc : ClassMatch U w c c') : ClassMatch V w c c' :=
  ⟨hc.own.grow h, hc.ancestors.imp fun _ _ hb => hb.grow h⟩

theorem ValueMatch.grow (h : U.Le V) {v v' : Value} (hv : ValueMatch U w v v') : ValueMatch V w v v' := by
  cases hv with
  | nil => exact .nil
  | bool b => exact .bool b
  | number x => exact .number x
  | string s => exact .string s
  | clock => exact .clock
  | function id hc => exact .function id (hc.grow h)
  | cls hc => exact .cls (hc.grow h)
  | instance_ id hc => exact .instance_ id (hc.grow h)

/-- Heaps that match go on matching. -/
theorem Good.grow (h : U.Le V) (hw : w.Good U) : w.Good V where
  frames_left := hw.frames_left
  frames_right := hw.frames_right
  proper r hr := (hw.proper r hr).grow h
  slots f r hr := (hw.slots f r hr).imp fun _ _ hp => ⟨hp.declared, hp.holds, hp.name, hp.value.grow h⟩
  fields_size := hw.fields_size
  fields i := (hw.fields i).imp fun _ _ hp => ⟨hp.1, hp.2.grow h⟩
  nextId := hw.nextId

end World

end links

/-! ### Comparisons -/

namespace Comparison

/-- The comparison `D` knows more than `C`: its tables have the entries that `C` has at the numbers that
`C` knows, and it allows what `C` allows. -/
structure Extends (C D : Comparison) : Prop where
  look : D.look = C.look
  left : ∀ {i l i' l'}, C.site i l i' l' → D.left[i]? = C.left[i]?
  right : ∀ {i l i' l'}, C.site i l i' l' → D.right[i']? = C.right[i']?
  site : ∀ {i l i' l'}, C.site i l i' l' → D.site i l i' l'
  early : ∀ {r r'}, C.early r r' → D.early r r'
  decl : ∀ {d d'}, C.decl d d' → D.decl d d'
  renames : ∀ {twin}, C.renames twin → D.renames twin

variable {C D : Comparison}

theorem Extends.finds (h : C.Extends D) {i i' : NodeId} {l l' : Nat} (hs : C.site i l i' l')
    {Γ : Levels} {d : Option Nat} {n' : String} (hf : C.Finds Γ d i' n') : D.Finds Γ d i' n' := by
  unfold Finds at hf ⊢
  rw [h.look, h.right hs]
  exact hf

/-- What a comparison allows, one that knows more allows. -/
theorem Extends.le (h : C.Extends D) : C.links.Le D.links where
  read := by
    rintro Γ p r r' ⟨hs, hf, hr⟩
    refine ⟨h.site hs, ?_, ?_⟩ <;> rw [h.left hs]
    · exact h.finds hs hf
    · exact hr
  write := by
    rintro Γ p r r' ⟨hs, ⟨hf, hr, ha⟩ | ⟨he, hl, hd, hd', hx⟩⟩
    · refine ⟨h.site hs, .inl ?_⟩
      rw [h.left hs]
      exact ⟨h.finds hs hf, hr, ha⟩
    · exact ⟨h.site hs, .inr ⟨h.early he, h.look.trans hl, (h.left hs).trans hd,
        (h.right hs).trans hd', hx⟩⟩
  super := by
    rintro Γ r r' l l' hs ⟨d, hm, hl, hr⟩
    refine ⟨d, hm, (h.left hs).trans hl, ?_⟩
    rw [h.look]
    cases hk : C.look with
    | byDistance =>
        rw [hk] at hr
        exact (h.right hs).trans hr
    | bySearch =>
        rw [hk] at hr
        exact hr
  site := h.site
  decl := h.decl
  renames := h.renames

end Comparison

/-! ### Code that changes little -/

section code

variable (F : FunDecl NodeId → FunDecl NodeId)

/-- A function with its declaration changed. -/
def Closure.mapDecl (c : Closure) : Closure := { c with decl := F c.decl }

/-- What a class statement makes, with the declarations changed. -/
def ClassBody.mapDecl (b : ClassBody) : ClassBody :=
  { b with methods := b.methods.map fun p => (p.1, p.2.mapDecl F) }

/-- A class with the declarations of its methods changed. -/
def Class.mapDecl (c : Class) : Class := ⟨c.own.mapDecl F, c.ancestors.map (ClassBody.mapDecl F)⟩

/-- A value with the declarations in it changed. -/
def Value.mapDecl : Value → Value
  | function id c => function id (c.mapDecl F)
  | cls c => cls (c.mapDecl F)
  | instance_ id c => instance_ id (c.mapDecl F)
  | v => v

/-- Slots with the declarations in their values changed. -/
def Slots.mapDecl (s : Slots) : Slots := s.map fun p => (p.1, p.2.mapDecl F)

/-- A heap with the declarations in its values changed. -/
def Heap.mapDecl (h : Heap) : Heap :=
  { h with frames := h.frames.map (Slots.mapDecl F), fields := h.fields.map (Slots.mapDecl F) }

/-- Slots with the declarations in their values changed, and with their names changed. -/
def Slots.recode (b : String → String) (s : Slots) : Slots := s.map fun p => (b p.1, p.2.mapDecl F)

/-- A heap with the declarations in its values changed, and with the names in all frames changed but that of
globals. -/
def Heap.recode (b : String → String) (h : Heap) : Heap :=
  { h with
    frames := h.frames.mapIdx fun f s => if f = globalFrame then s.mapDecl F else s.recode F b
    fields := h.fields.map (Slots.mapDecl F) }

theorem Closure.mapDecl_id (c : Closure) : c.mapDecl id = c := rfl

theorem classBody_mapDecl_id (b : ClassBody) : b.mapDecl id = b := by
  simp [ClassBody.mapDecl, Closure.mapDecl_id]

theorem Class.mapDecl_id (c : Class) : c.mapDecl id = c := by
  rw [Class.mapDecl, classBody_mapDecl_id, List.map_id'' classBody_mapDecl_id]

theorem Value.mapDecl_id (v : Value) : v.mapDecl id = v := by
  cases v <;> simp [Value.mapDecl, Closure.mapDecl_id, Class.mapDecl_id]

theorem Slots.mapDecl_id (s : Slots) : s.mapDecl id = s := by
  simp [Slots.mapDecl, Value.mapDecl_id]

theorem Heap.mapDecl_id (h : Heap) : h.mapDecl id = h := by
  have hid : Slots.mapDecl id = id := funext Slots.mapDecl_id
  simp [Heap.mapDecl, hid]

end code

namespace World

theorem slots_ext {F : FunDecl NodeId → FunDecl NodeId} {a b : Array Slots} (hs : b.size = a.size)
    (h : ∀ i, Slots.mapDecl F (b.getD i []) = Slots.mapDecl F (a.getD i [])) :
    b.map (Slots.mapDecl F) = a.map (Slots.mapDecl F) := by
  refine Array.ext (by simpa using hs) fun i hi hi' => ?_
  have h := h i
  rw [Array.size_map] at hi hi'
  rwa [Array.getD_eq_getD_getElem?, Array.getD_eq_getD_getElem?, Array.getElem?_eq_getElem hi,
    Array.getElem?_eq_getElem hi', Option.getD_some, Option.getD_some,
    ← Array.getElem_map (Slots.mapDecl F), ← Array.getElem_map (Slots.mapDecl F)] at h

section same

variable {U : Links} {w : World} {F : FunDecl NodeId → FunDecl NodeId}
  (hd : ∀ d d', U.decl d d' → F d' = F d)

include hd

theorem ClosureMatch.mapDecl_eq {c c' : Closure} (h : ClosureMatch U w c c') : c'.mapDecl F = c.mapDecl F := by
  obtain ⟨he, hi, _, -, hm, -⟩ := h
  rw [Closure.mapDecl, Closure.mapDecl, he, hi, hd _ _ hm.decl]

theorem MethodMatch.mapDecl_eq {c c' : Closure} (h : MethodMatch U w c c') : c'.mapDecl F = c.mapDecl F := by
  obtain ⟨he, hi, _, -, hm⟩ := h
  rw [Closure.mapDecl, Closure.mapDecl, he, hi, hd _ _ hm.decl]

theorem BodyMatch.mapDecl_eq {b b' : ClassBody} (h : BodyMatch U w b b') : b'.mapDecl F = b.mapDecl F := by
  obtain ⟨hi, hn, hm⟩ := h
  have hms : b'.methods.map (fun p => (p.1, p.2.mapDecl F)) =
      b.methods.map fun p => (p.1, p.2.mapDecl F) := by
    generalize b.methods = ms at hm
    generalize b'.methods = ms' at hm
    induction hm with
    | nil => rfl
    | cons hp _ ih => rw [List.map_cons, List.map_cons, ih, hp.1, hp.2.mapDecl_eq hd]
  rw [ClassBody.mapDecl, ClassBody.mapDecl, hi, hn, hms]

theorem ClassMatch.mapDecl_eq {c c' : Class} (h : ClassMatch U w c c') : c'.mapDecl F = c.mapDecl F := by
  obtain ⟨ho, ha⟩ := h
  have hanc : c'.ancestors.map (ClassBody.mapDecl F) = c.ancestors.map (ClassBody.mapDecl F) := by
    generalize c.ancestors = bs at ha
    generalize c'.ancestors = bs' at ha
    induction ha with
    | nil => rfl
    | cons hb _ ih => rw [List.map_cons, List.map_cons, ih, hb.mapDecl_eq hd]
  rw [Class.mapDecl, Class.mapDecl, ho.mapDecl_eq hd, hanc]

theorem ValueMatch.mapDecl_eq {v v' : Value} (h : ValueMatch U w v v') : v'.mapDecl F = v.mapDecl F := by
  cases h with
  | function id hc => rw [Value.mapDecl, Value.mapDecl, hc.mapDecl_eq hd]
  | cls hc => rw [Value.mapDecl, Value.mapDecl, hc.mapDecl_eq hd]
  | instance_ id hc => rw [Value.mapDecl, Value.mapDecl, hc.mapDecl_eq hd]
  | _ => rfl

theorem SlotsMatch.recode_eq {r : Role} {b : String → String} (hr : ∀ n, b (r.twin n) = b n) {s s' : Slots}
    (h : SlotsMatch U w r s s') : s'.recode F b = s.recode F b := by
  unfold Slots.recode
  induction h with
  | nil => rfl
  | @cons p p' _ _ hp _ ih => rw [List.map_cons, List.map_cons, ih, hp.name, hr, hp.value.mapDecl_eq hd]

theorem SlotsMatch.mapDecl_eq {r : Role} (hr : r.twin = id) {s s' : Slots} (h : SlotsMatch U w r s s') :
    s'.mapDecl F = s.mapDecl F :=
  h.recode_eq hd (b := id) fun n => by rw [hr, id]

theorem FieldsMatch.mapDecl_eq {s s' : Slots} (h : FieldsMatch U w s s') : s'.mapDecl F = s.mapDecl F := by
  unfold Slots.mapDecl
  induction h with
  | nil => rfl
  | cons hp _ ih => rw [List.map_cons, List.map_cons, ih, hp.1, hp.2.mapDecl_eq hd]

/-- Frames that match are the same up to what the names of a scope may change to. -/
theorem Good.slots_recode {b : String → String} (hr : ∀ twin, U.renames twin → ∀ n, b (twin n) = b n)
    (hw : w.Good U) (f : FrameId) :
    (w.right.frames.getD f []).recode F b = (w.left.frames.getD f []).recode F b := by
  cases hf : w.roles[f]? with
  | some r =>
      refine SlotsMatch.recode_eq hd ?_ (hw.slots f r hf)
      have hp := hw.proper r (List.mem_of_getElem? hf)
      cases r with
      | names declared twin => exact hr twin hp.renames
      | _ => exact fun _ => rfl
  | none =>
      have hl := List.getElem?_eq_none_iff.mp hf
      rw [Array.getD_eq_getD_getElem?, Array.getD_eq_getD_getElem?,
        Array.getElem?_eq_none (hw.frames_right ▸ hl), Array.getElem?_eq_none (hw.frames_left ▸ hl)]

theorem Good.fields_mapDecl (hw : w.Good U) :
    w.right.fields.map (Slots.mapDecl F) = w.left.fields.map (Slots.mapDecl F) :=
  slots_ext hw.fields_size fun i => (hw.fields i).mapDecl_eq hd

/-- Heaps that match are the same up to their code when no name changes. -/
theorem Good.mapDecl_eq (hr : ∀ twin, U.renames twin → twin = id) (hw : w.Good U) :
    w.right.mapDecl F = w.left.mapDecl F := by
  have hframes : w.right.frames.map (Slots.mapDecl F) = w.left.frames.map (Slots.mapDecl F) :=
    slots_ext (hw.frames_right.trans hw.frames_left.symm) fun f =>
      hw.slots_recode hd (b := id) (fun twin ht n => by rw [hr twin ht, id]) f
  rw [Heap.mapDecl, Heap.mapDecl, hframes, hw.fields_mapDecl hd, hw.nextId]

/-- Globals that match are the same up to their code. -/
theorem Good.globals_mapDecl (hg : w.roles[globalFrame]? = some .globals) (hw : w.Good U) :
    (w.right.slots globalFrame).mapDecl F = (w.left.slots globalFrame).mapDecl F :=
  (hw.slots globalFrame _ hg).mapDecl_eq hd rfl

/-- Heaps that match are the same up to their code and to what the names of a scope may change to. -/
theorem Good.recode_eq {b : String → String} (hr : ∀ twin, U.renames twin → ∀ n, b (twin n) = b n)
    (hg : w.roles[globalFrame]? = some .globals) (hw : w.Good U) : w.right.recode F b = w.left.recode F b := by
  have hsize : w.right.frames.size = w.left.frames.size := hw.frames_right.trans hw.frames_left.symm
  have hframes : (w.right.frames.mapIdx fun f s => if f = globalFrame then s.mapDecl F else s.recode F b) =
      w.left.frames.mapIdx fun f s => if f = globalFrame then s.mapDecl F else s.recode F b := by
    refine Array.ext (by simpa using hsize) fun f hf hf' => ?_
    rw [Array.size_mapIdx] at hf hf'
    rw [Array.getElem_mapIdx, Array.getElem_mapIdx]
    have hslots (h : Heap) (hf : f < h.frames.size) : h.slots f = h.frames[f] := by
      rw [Heap.slots, Array.getD_eq_getD_getElem?, Array.getElem?_eq_getElem hf, Option.getD_some]
    split
    · rename_i he
      subst he
      rw [← hslots _ hf, ← hslots _ hf']
      exact hw.globals_mapDecl hd hg
    · rw [← hslots _ hf, ← hslots _ hf']
      exact hw.slots_recode hd hr f
  rw [Heap.recode, Heap.recode, hframes, hw.fields_mapDecl hd, hw.nextId]

end same

/-! ### Code that does not change -/

section unchanged

variable {U : Links} {w : World} (hd : ∀ d d', U.decl d d' → d' = d)

include hd

theorem ValueMatch.eq {v v' : Value} (h : ValueMatch U w v v') : v' = v := by
  have := h.mapDecl_eq (F := id) hd
  rwa [Value.mapDecl_id, Value.mapDecl_id] at this

/-- Heaps that match are the same when neither names nor declarations change. -/
theorem Good.eq (hr : ∀ twin, U.renames twin → twin = id) (hw : w.Good U) : w.right = w.left := by
  have := hw.mapDecl_eq (F := id) hd hr
  rwa [Heap.mapDecl_id, Heap.mapDecl_id] at this

end unchanged

end World

end Lox
