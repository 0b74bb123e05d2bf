import Mathlib.Data.List.Nodup
import Std.Data.HashMap.Lemmas
import Lox.Proofs.Resolving

/-! # Identities of nodes

Numbering gives the uses of names in a tree different numbers from the range that it says it used
(`Stmt.numberAll_within`), so the distances that resolution records can be looked up by the number
of a use (`getElem?_distancesOf`). -/

namespace Lox

/-- Numbers from a range. -/
structure Inside (first last : Nat) (ids : List Nat) : Prop where
  le : first ≤ last
  range : ∀ i ∈ ids, first ≤ i ∧ i < last

/-- Different numbers from a range. -/
structure Within (first last : Nat) (ids : List Nat) : Prop extends Inside first last ids where
  nodup : ids.Nodup

namespace Inside

variable {a b c : Nat} {ids ids' : List Nat}

theorem nil (h : a ≤ b) : Inside a b [] := ⟨h, nofun⟩

theorem append (h : Inside a b ids) (h' : Inside b c ids') : Inside a c (ids ++ ids') where
  le := Nat.le_trans h.le h'.le
  range i hi := by
    have := h.le
    have := h'.le
    rcases List.mem_append.mp hi with hi | hi
    · have := h.range i hi
      omega
    · have := h'.range i hi
      omega

theorem perm (h : Inside a b ids) (hp : ids.Perm ids') : Inside a b ids' :=
  ⟨h.le, fun i hi => h.range i (hp.mem_iff.mpr hi)⟩

/-- A number may stay unused at the start. -/
theorem skip (h : Inside (a + 1) b ids) : Inside a b ids :=
  ⟨Nat.le_of_succ_le h.le, fun i hi => ⟨Nat.le_of_succ_le (h.range i hi).1, (h.range i hi).2⟩⟩

/-- The number at the start is used. -/
theorem cons (h : Inside (a + 1) b ids) : Inside a b (a :: ids) where
  le := Nat.le_of_succ_le h.le
  range i hi := by
    have := h.le
    rcases List.mem_cons.mp hi with rfl | hi
    · omega
    · exact h.skip.range i hi

end Inside

namespace Within

variable {a b c : Nat} {ids ids' : List Nat}

theorem nil (h : a ≤ b) : Within a b [] := ⟨.nil h, List.nodup_nil⟩

theorem one (a : Nat) : Within a (a + 1) [a] := ⟨.cons (.nil (Nat.le_refl _)), by simp⟩

theorem append (h : Within a b ids) (h' : Within b c ids') : Within a c (ids ++ ids') where
  toInside := h.toInside.append h'.toInside
  nodup := by
    refine List.nodup_append.mpr ⟨h.nodup, h'.nodup, ?_⟩
    rintro i hi _ hi' rfl
    have := h.range i hi
    have := h'.range i hi'
    omega

theorem perm (h : Within a b ids) (hp : ids.Perm ids') : Within a b ids' :=
  ⟨h.toInside.perm hp, hp.nodup_iff.mp h.nodup⟩

theorem skip (h : Within (a + 1) b ids) : Within a b ids := ⟨h.toInside.skip, h.nodup⟩

end Within

/-- The numbers of uses of names. -/
def referenceIds (refs : List (UseKind × Reference NodeId)) : List NodeId := refs.map fun u => u.2.id

theorem referenceIds_append (rs rs' : List (UseKind × Reference NodeId)) :
    referenceIds (rs ++ rs') = referenceIds rs ++ referenceIds rs' := List.map_append

mutual

theorem Expr.number_within : ∀ (e : PlainExpr) (next : NodeId),
    Within next (e.number next).2 (referenceIds (e.number next).1.references)
  | .literal _ _, next => .nil (Nat.le_succ next)
  | .group _ inner, next => (Expr.number_within inner (next + 1)).skip
  | .unary _ _ _ operand, next => (Expr.number_within operand (next + 1)).skip
  | .binary _ _ _ left right, next => by
      have h := (Expr.number_within left (next + 1)).append (Expr.number_within right _)
      rw [← referenceIds_append] at h
      exact h.skip
  | .logical _ _ _ left right, next => by
      have h := (Expr.number_within left (next + 1)).append (Expr.number_within right _)
      rw [← referenceIds_append] at h
      exact h.skip
  | .name _, next => .one next
  | .assign target value, next => by
      have h := (Within.one next).append (Expr.number_within value (next + 1))
      have hp := h.perm List.perm_append_comm
      rw [Expr.number, Expr.references, referenceIds_append]
      exact hp
  | .call _ callee _ arguments, next => by
      have h := (Expr.number_within callee (next + 1)).append (Expr.numberEach_within arguments _)
      rw [← referenceIds_append] at h
      exact h.skip
  | .get _ object _, next => (Expr.number_within object (next + 1)).skip
  | .set _ object _ value, next => by
      have h := (Expr.number_within object (next + 1)).append (Expr.number_within value _)
      have hp := h.perm List.perm_append_comm
      rw [← referenceIds_append] at hp
      exact hp.skip
  | .this _, next => .one next
  | .super _ _, next => .one next

theorem Expr.numberEach_within : ∀ (es : List PlainExpr) (next : NodeId),
    Within next (Expr.numberEach next es).2
      (referenceIds (Expr.referencesEach (Expr.numberEach next es).1))
  | [], next => .nil (Nat.le_refl next)
  | e :: es, next => by
      have h := (Expr.number_within e next).append (Expr.numberEach_within es _)
      rw [← referenceIds_append] at h
      exact h

end

/-- The numbers of lexemes. -/
def markIds (marks : List (Reference NodeId)) : List NodeId := marks.map Reference.id

theorem markIds_append (ms ms' : List (Reference NodeId)) :
    markIds (ms ++ ms') = markIds ms ++ markIds ms' := List.map_append

mutual

theorem Expr.number_marks : ∀ (e : PlainExpr) (next : NodeId),
    Inside next (e.number next).2 (markIds (e.number next).1.marks)
  | .literal _ _, next => .nil (Nat.le_succ next)
  | .group _ inner, next => (Expr.number_marks inner (next + 1)).skip
  | .unary _ _ _ operand, next => (Expr.number_marks operand (next + 1)).cons
  | .binary _ _ _ left right, next => by
      have h := (Expr.number_marks left (next + 1)).append (Expr.number_marks right _)
      rw [← markIds_append] at h
      exact h.cons
  | .logical _ _ _ left right, next => by
      have h := (Expr.number_marks left (next + 1)).append (Expr.number_marks right _)
      rw [← markIds_append] at h
      exact h.skip
  | .name _, next => .nil (Nat.le_succ next)
  | .assign _ value, next => (Expr.number_marks value (next + 1)).skip
  | .call _ callee _ arguments, next => by
      have h := (Expr.number_marks callee (next + 1)).append (Expr.numberEach_marks arguments _)
      rw [← markIds_append] at h
      exact h.cons
  | .get _ object _, next => (Expr.number_marks object (next + 1)).cons
  | .set _ object _ value, next => by
      have h := (Expr.number_marks object (next + 1)).append (Expr.number_marks value _)
      have hp := h.perm List.perm_append_comm
      rw [← markIds_append] at hp
      exact hp.cons
  | .this _, next => .nil (Nat.le_succ next)
  | .super _ _, next => .cons (.nil (Nat.le_refl _))

theorem Expr.numberEach_marks : ∀ (es : List PlainExpr) (next : NodeId),
    Inside next (Expr.numberEach next es).2 (markIds (Expr.marksEach (Expr.numberEach next es).1))
  | [], next => .nil (Nat.le_refl next)
  | e :: es, next => by
      have h := (Expr.number_marks e next).append (Expr.numberEach_marks es _)
      rw [← markIds_append] at h
      exact h

end

/-! ### Numbers of statements -/

/-- Numbers of the expressions of a tree. -/
def idsOf (ids : Expr NodeId → List NodeId) (xs : List Placed) : List NodeId :=
  xs.flatMap fun x => ids x.expr

section statements

variable {ids : Expr NodeId → List NodeId}

theorem idsOf_append (xs xs' : List Placed) : idsOf ids (xs ++ xs') = idsOf ids xs ++ idsOf ids xs' :=
  List.flatMap_append

theorem idsOf_cons (around : Surroundings) (own : Option Lexeme) (e : Expr NodeId)
    (xs : List Placed) : idsOf ids (⟨around, own, e⟩ :: xs) = ids e ++ idsOf ids xs :=
  List.flatMap_cons

/-- What holds of the numbers of every numbered expression, and of consecutive ranges together. -/
structure Gathers (P : NodeId → NodeId → List NodeId → Prop) (ids : Expr NodeId → List NodeId) : Prop where
  nil : ∀ next, P next next []
  append : ∀ {a b c is js}, P a b is → P b c js → P a c (is ++ js)
  expr : ∀ (e : PlainExpr) (next : NodeId), P next (e.number next).2 (ids (e.number next).1)

variable {P : NodeId → NodeId → List NodeId → Prop}

theorem Gathers.expr? (hP : Gathers P ids) (e : Option PlainExpr) (next : NodeId)
    (around : Surroundings) (own : Option Lexeme) :
    P next (Expr.number? next e).2
      (idsOf ids ((Expr.number? next e).1.toList.map fun e => ⟨around, own, e⟩)) := by
  cases e with
  | none => exact hP.nil next
  | some e =>
      have h := hP.expr e next
      rw [← List.append_nil (ids _)] at h
      exact h

mutual

theorem Stmt.number_gathers (hP : Gathers P ids) :
    ∀ (s : PlainStmt) (next : NodeId) (around : Surroundings),
      P next (s.number next).2 (idsOf ids ((s.number next).1.expressions around))
  | .expression value, next, around => hP.expr? (some value) next around none
  | .print value, next, around => hP.expr? (some value) next around none
  | .var name initializer, next, around => hP.expr? initializer next around (around.initializing name)
  | .block body, next, around => Stmt.numberAll_gathers hP body next _
  | .ite condition yes none, next, around => by
      have h := hP.append (hP.expr condition next) (Stmt.number_gathers hP yes _ around)
      rw [← idsOf_cons around none] at h
      exact h
  | .ite condition yes (some no), next, around => by
      have h := hP.append (hP.expr condition next)
        (hP.append (Stmt.number_gathers hP yes _ around) (Stmt.number_gathers hP no _ around))
      rw [← idsOf_append, ← idsOf_cons around none] at h
      exact h
  | .while condition body, next, around => by
      have h := hP.append (hP.expr condition next) (Stmt.number_gathers hP body _ around)
      rw [← idsOf_cons around none] at h
      exact h
  | .function decl, next, _ => FunDecl.number_gathers hP decl next _
  | .ret _ value, next, around => hP.expr? value next around none
  | .cls name none methods, next, around => FunDecl.numberEach_gathers hP methods next _
  | .cls name (some superclass) methods, next, around => by
      have h := hP.append (hP.expr (.name superclass) next)
        (FunDecl.numberEach_gathers hP methods (next + 1) (.this :: .super :: around.declare name))
      rw [← idsOf_cons around none] at h
      exact h

theorem Stmt.numberAll_gathers (hP : Gathers P ids) :
    ∀ (body : List PlainStmt) (next : NodeId) (around : Surroundings),
      P next (Stmt.numberAll next body).2
        (idsOf ids (Stmt.expressionsAll around (Stmt.numberAll next body).1))
  | [], next, _ => hP.nil next
  | s :: body, next, around => by
      have h := hP.append (Stmt.number_gathers hP s next around) (Stmt.numberAll_gathers hP body _
        ((s.number next).1.after around))
      rw [← idsOf_append] at h
      exact h

theorem FunDecl.number_gathers (hP : Gathers P ids) :
    ∀ (decl : FunDecl Unit) (next : NodeId) (around : Surroundings),
      P next (decl.number next).2 (idsOf ids ((decl.number next).1.expressions around))
  | .mk _ _ body, next, _ => Stmt.numberAll_gathers hP body next _

theorem FunDecl.numberEach_gathers (hP : Gathers P ids) :
    ∀ (decls : List (FunDecl Unit)) (next : NodeId) (around : Surroundings),
      P next (FunDecl.numberEach next decls).2
        (idsOf ids (FunDecl.expressionsEach around (FunDecl.numberEach next decls).1))
  | [], next, _ => hP.nil next
  | decl :: decls, next, around => by
      have h := hP.append (FunDecl.number_gathers hP decl next around)
        (FunDecl.numberEach_gathers hP decls _ around)
      rw [← idsOf_append] at h
      exact h

end

end statements

/-- The uses of names have different numbers. -/
theorem gathers_references : Gathers Within fun e => referenceIds e.references where
  nil next := .nil (Nat.le_refl next)
  append := Within.append
  expr := Expr.number_within

/-- The lexemes at which faults may be reported have numbers from the range. -/
theorem gathers_marks : Gathers Inside fun e => markIds e.marks where
  nil next := .nil (Nat.le_refl next)
  append := Inside.append
  expr := Expr.number_marks

/-- The numbers of the lexemes of a program at which faults may be reported. -/
theorem marks_inside (body : List PlainStmt) (next : NodeId) :
    ∀ x ∈ Stmt.expressionsAll [] (Stmt.numberAll next body).1, ∀ m ∈ x.expr.marks,
      next ≤ m.id ∧ m.id < (Stmt.numberAll next body).2 := fun x hx m hm =>
  (Stmt.numberAll_gathers gathers_marks body next []).range m.id
    (List.mem_flatMap.mpr ⟨x, hx, List.mem_map_of_mem hm⟩)

/-! ### Reading distances off a table -/

theorem usesAt_ids (around : Surroundings) (own : Option Lexeme)
    (refs : List (UseKind × Reference NodeId)) :
    (usesAt around own refs).map (·.ref.id) = referenceIds refs := by
  simp [usesAt, referenceIds, Function.comp_def]

theorem placed_ids (xs : List Placed) :
    (xs.flatMap Placed.uses).map (·.ref.id) = idsOf (fun e => referenceIds e.references) xs := by
  induction xs with
  | nil => rfl
  | cons x xs ih =>
      rw [List.flatMap_cons, List.map_append, ih, Placed.uses, usesAt_ids, idsOf, idsOf,
        List.flatMap_cons]

/-- The uses of names in a numbered program have different numbers. -/
theorem usesOf_within (body : List PlainStmt) (next : NodeId) :
    Within next (Stmt.numberAll next body).2
      ((usesOf (Stmt.numberAll next body).1).map (·.ref.id)) := by
  rw [usesOf, placed_ids]
  exact Stmt.numberAll_gathers gathers_references body next []

theorem Use.id_of_entry? {u : Use} {p : NodeId × Nat} (h : u.entry? = some p) :
    p.1 = u.ref.id ∧ u.distance? = some p.2 := by
  obtain ⟨d, hd, rfl⟩ := Option.map_eq_some_iff.mp h
  exact ⟨rfl, hd⟩

theorem mem_distancesOf {us : List Use} {p : NodeId × Nat} :
    p ∈ distancesOf us ↔ ∃ u ∈ us, u.entry? = some p := by
  simp [distancesOf]

/-- Different uses have different keys in a table. -/
theorem distancesOf_pairwise {us : List Use} (h : (us.map (·.ref.id)).Nodup) :
    (distancesOf us).Pairwise fun p q => (p.1 == q.1) = false := by
  unfold distancesOf
  rw [List.pairwise_reverse, List.pairwise_filterMap]
  refine (List.pairwise_map.mp h).imp fun hne p hp q hq => beq_false_of_ne fun he => hne ?_
  rw [← (Use.id_of_entry? hp).1, ← (Use.id_of_entry? hq).1, he]

section tables

variable {T : Std.HashMap NodeId Nat} {us : List Use}

/-- A table does not change at numbers that no use has. -/
theorem getElem?_distancesOf_of_notMem {i : NodeId} (hi : ∀ u ∈ us, u.ref.id ≠ i) :
    (T.insertMany (distancesOf us))[i]? = T[i]? := by
  refine Std.HashMap.getElem?_insertMany_list_of_contains_eq_false ?_
  rw [List.contains_eq_mem, decide_eq_false_iff_not]
  intro hm
  obtain ⟨p, hp, rfl⟩ := List.mem_map.mp hm
  obtain ⟨u, hu, he⟩ := mem_distancesOf.mp hp
  exact hi u hu (Use.id_of_entry? he).1.symm

/-- A table that had no entry for a use has its distance afterwards. -/
theorem getElem?_distancesOf (h : (us.map (·.ref.id)).Nodup) {u : Use} (hu : u ∈ us)
    (ht : T[u.ref.id]? = none) : (T.insertMany (distancesOf us))[u.ref.id]? = u.distance? := by
  cases hd : u.distance? with
  | some d =>
      have he : u.entry? = some (u.ref.id, d) := by rw [Use.entry?, hd, Option.map_some]
      exact Std.HashMap.getElem?_insertMany_list_of_mem (k := u.ref.id) (by simp)
        (distancesOf_pairwise h) (mem_distancesOf.mpr ⟨u, hu, he⟩)
  | none =>
      rw [← ht]
      refine Std.HashMap.getElem?_insertMany_list_of_contains_eq_false ?_
      rw [List.contains_eq_mem, decide_eq_false_iff_not]
      intro hm
      obtain ⟨p, hp, hpi⟩ := List.mem_map.mp hm
      obtain ⟨v, hv, he⟩ := mem_distancesOf.mp hp
      have huv : v = u := List.inj_on_of_nodup_map h hv hu ((Use.id_of_entry? he).1.symm.trans hpi)
      subst huv
      exact nomatch hd.symm.trans (Use.id_of_entry? he).2

end tables

end Lox
