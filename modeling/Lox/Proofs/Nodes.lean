import Lox.Proofs.Receivers

/-! # Nodes and their numbers

Every expression in a tree is a node of it, and numbering uses every number of its range for exactly one node,
in the order of the text (`nodesOf_number`, `Expr.nodes_number`).  The nodes that resolution looks up are the
uses of names, assignments, `this` and `super`; it makes at most one entry for each (`entries_keys`), and
merging the entries of a program into a table leaves the table as it is at all other numbers. -/

namespace Lox

/-! ### Nodes of expressions -/

section nodes

variable {ι : Type}

/-- The label of an expression's own node. -/
def Expr.label : Expr ι → ι
  | .literal i _ | .group i _ | .unary i _ _ _ | .binary i _ _ _ _ | .logical i _ _ _ _ => i
  | .call i _ _ _ | .get i _ _ | .set i _ _ _ => i
  | .name ref | .assign ref _ | .this ref | .super ref _ => ref.id

/-- Is the node a use of a name, an assignment, `this` or `super`? -/
def Expr.isUse : Expr ι → Bool
  | .name _ | .assign _ _ | .this _ | .super _ _ => true
  | _ => false

mutual

/-- The nodes of an expression, its own first, in the order of the text. -/
def Expr.nodes : Expr ι → List (Expr ι)
  | .literal i value => [.literal i value]
  | .group i inner => .group i inner :: inner.nodes
  | .unary i op sign operand => .unary i op sign operand :: operand.nodes
  | .binary i op sign left right => .binary i op sign left right :: (left.nodes ++ right.nodes)
  | .logical i op sign left right => .logical i op sign left right :: (left.nodes ++ right.nodes)
  | .name ref => [.name ref]
  | .assign target value => .assign target value :: value.nodes
  | .call i callee closing arguments =>
    .call i callee closing arguments :: (callee.nodes ++ Expr.nodesEach arguments)
  | .get i object property => .get i object property :: object.nodes
  | .set i object property value => .set i object property value :: (object.nodes ++ value.nodes)
  | .this ref => [.this ref]
  | .super ref method => [.super ref method]

/-- The nodes of expressions in order. -/
def Expr.nodesEach : List (Expr ι) → List (Expr ι)
  | [] => []
  | e :: rest => e.nodes ++ Expr.nodesEach rest

end

/-- The labels of nodes. -/
abbrev labels (nodes : List (Expr ι)) : List ι := nodes.map Expr.label

/-- The labels of the nodes that are looked up. -/
def useLabels (nodes : List (Expr ι)) : List ι := labels (nodes.filter Expr.isUse)

theorem useLabels_append (ns ns' : List (Expr ι)) : useLabels (ns ++ ns') = useLabels ns ++ useLabels ns' := by
  simp [useLabels]

end nodes

/-- The nodes of a program. -/
def nodesOf (body : List (Stmt NodeId)) : List (Expr NodeId) :=
  (Stmt.expressionsAll [] body).flatMap fun x => x.expr.nodes

theorem labels_nodesOf (body : List (Stmt NodeId)) :
    labels (nodesOf body) = idsOf (fun e => labels e.nodes) (Stmt.expressionsAll [] body) := List.map_flatMap

/-- The nodes of what a step runs. -/
def Code.nodes : Code → List (Expr NodeId)
  | program body => nodesOf body
  | expression e => e.nodes

/-! ### Every number once -/

/-- All numbers of a range in order. -/
structure Counts (first last : Nat) (ids : List Nat) : Prop where
  le : first ≤ last
  ids : ids = List.range' first (last - first)

namespace Counts

variable {a b c : Nat} {is js : List Nat}

theorem append (h : Counts a b is) (h' : Counts b c js) : Counts a c (is ++ js) where
  le := Nat.le_trans h.le h'.le
  ids := by
    have hle := h.le
    have hle' := h'.le
    have hb : b = a + (b - a) := by omega
    have hc : c - a = (b - a) + (c - b) := by omega
    rw [hc, ← List.range'_append_1, ← hb, h.ids, h'.ids]

/-- The number at the start comes first. -/
theorem cons (h : Counts (a + 1) b is) : Counts a b (a :: is) where
  le := Nat.le_of_succ_le h.le
  ids := by
    have hle := h.le
    have hb : b - a = (b - (a + 1)) + 1 := by omega
    rw [hb, List.range'_succ, ← h.ids]

theorem nil (a : Nat) : Counts a a [] := ⟨Nat.le_refl a, by rw [Nat.sub_self]; rfl⟩

theorem one (a : Nat) : Counts a (a + 1) [a] := ⟨Nat.le_succ a, by rw [Nat.add_sub_cancel_left]; rfl⟩

theorem within (h : Counts a b is) : Within a b is where
  le := h.le
  range i hi := by
    rw [h.ids, List.mem_range'_1] at hi
    have hle := h.le
    omega
  nodup := by
    rw [h.ids]
    exact List.nodup_range'

end Counts

mutual

/-- Numbering an expression uses every number of its range once. -/
theorem Expr.nodes_number : ∀ (e : PlainExpr) (next : NodeId),
    Counts next (e.number next).2 (labels (e.number next).1.nodes)
  | .literal _ _, next => .one next
  | .group _ inner, next => (Expr.nodes_number inner (next + 1)).cons
  | .unary _ _ _ operand, next => (Expr.nodes_number operand (next + 1)).cons
  | .binary _ _ _ left right, next => by
      have h := (Expr.nodes_number left (next + 1)).append (Expr.nodes_number right _)
      rw [← List.map_append] at h
      exact h.cons
  | .logical _ _ _ left right, next => by
      have h := (Expr.nodes_number left (next + 1)).append (Expr.nodes_number right _)
      rw [← List.map_append] at h
      exact h.cons
  | .name _, next => .one next
  | .assign _ value, next => (Expr.nodes_number value (next + 1)).cons
  | .call _ callee _ arguments, next => by
      have h := (Expr.nodes_number callee (next + 1)).append (Expr.nodesEach_number arguments _)
      rw [← List.map_append] at h
      exact h.cons
  | .get _ object _, next => (Expr.nodes_number object (next + 1)).cons
  | .set _ object _ value, next => by
      have h := (Expr.nodes_number object (next + 1)).append (Expr.nodes_number value _)
      rw [← List.map_append] at h
      exact h.cons
  | .this _, next => .one next
  | .super _ _, next => .one next

theorem Expr.nodesEach_number : ∀ (es : List PlainExpr) (next : NodeId),
    Counts next (Expr.numberEach next es).2 (labels (Expr.nodesEach (Expr.numberEach next es).1))
  | [], next => .nil next
  | e :: es, next => by
      have h := (Expr.nodes_number e next).append (Expr.nodesEach_number es _)
      rw [← List.map_append] at h
      exact h

end

/-- Numbering a program uses every number of its range once. -/
theorem nodesOf_number (body : List PlainStmt) (next : NodeId) :
    Counts next (Stmt.numberAll next body).2 (labels (nodesOf (Stmt.numberAll next body).1)) := by
  have hgathers : Gathers Counts fun e => labels e.nodes := {
    nil := Counts.nil
    append := Counts.append
    expr := Expr.nodes_number }
  rw [labels_nodesOf]
  exact Stmt.numberAll_gathers hgathers body next []

/-! ### The nodes that are looked up -/

mutual

/-- The uses of names in an expression are the nodes that are looked up. -/
theorem Expr.references_perm : ∀ e : Expr NodeId, (referenceIds e.references).Perm (useLabels e.nodes)
  | .literal _ _ => .refl _
  | .group _ inner => Expr.references_perm inner
  | .unary _ _ _ operand => Expr.references_perm operand
  | .binary _ _ _ left right => by
      rw [Expr.references, referenceIds_append]
      refine ((Expr.references_perm left).append (Expr.references_perm right)).trans ?_
      rw [← useLabels_append]
      exact .refl _
  | .logical _ _ _ left right => by
      rw [Expr.references, referenceIds_append]
      refine ((Expr.references_perm left).append (Expr.references_perm right)).trans ?_
      rw [← useLabels_append]
      exact .refl _
  | .name _ => .refl _
  | .assign target value => by
      rw [Expr.references, referenceIds_append]
      exact List.perm_append_comm.trans ((Expr.references_perm value).cons target.id)
  | .call _ callee _ arguments => by
      rw [Expr.references, referenceIds_append]
      refine ((Expr.references_perm callee).append (Expr.referencesEach_perm arguments)).trans ?_
      rw [← useLabels_append]
      exact .refl _
  | .get _ object _ => Expr.references_perm object
  | .set _ object _ value => by
      rw [Expr.references, referenceIds_append]
      refine (List.perm_append_comm.trans
        ((Expr.references_perm object).append (Expr.references_perm value))).trans ?_
      rw [← useLabels_append]
      exact .refl _
  | .this _ => .refl _
  | .super _ _ => .refl _

theorem Expr.referencesEach_perm : ∀ es : List (Expr NodeId),
    (referenceIds (Expr.referencesEach es)).Perm (useLabels (Expr.nodesEach es))
  | [] => .refl _
  | e :: es => by
      rw [Expr.referencesEach, referenceIds_append, Expr.nodesEach, useLabels_append]
      exact (Expr.references_perm e).append (Expr.referencesEach_perm es)

end

/-- The uses of names among the sites of what a step runs are the nodes that are looked up. -/
theorem Code.siteIds_perm (code : Code) : (siteIds code.sites).Perm (useLabels code.nodes) := by
  cases code with
  | program body =>
      change (siteIds (Stmt.sitesAll [] body)).Perm
        (useLabels ((Stmt.expressionsAll [] body).flatMap fun x => x.expr.nodes))
      rw [Stmt.siteIds_sitesAll body [] []]
      induction Stmt.expressionsAll [] body with
      | nil => exact .refl _
      | cons x xs ih =>
          rw [placedIds_cons, List.flatMap_cons, useLabels_append]
          exact (Expr.references_perm x.expr).append ih
  | expression e =>
      unfold Code.sites Code.nodes Expr.sites
      rw [siteIds_uses]
      exact Expr.references_perm e

/-! ### Entries of a table -/

/-- There is at most one entry for a use of a name, and none for anything else. -/
theorem entries_keys {sites : List Site} (hn : (siteIds sites).Nodup) :
    ((entries sites).map Prod.fst).Nodup ∧ ∀ p ∈ entries sites, p.1 ∈ siteIds sites := by
  refine ⟨List.pairwise_map.mpr ((entries_pairwise hn).imp fun h => by simpa using h), fun p hp => ?_⟩
  obtain ⟨site, hs, he⟩ := mem_entries.mp hp
  obtain ⟨ref, hr, he⟩ := Option.bind_eq_some_iff.mp he
  obtain ⟨d, -, rfl⟩ := Option.map_eq_some_iff.mp he
  exact List.mem_filterMap.mpr ⟨site, hs, by rw [hr, Option.map_some]⟩

/-- The nodes of a job have the numbers from the next one of the session up to its own. -/
theorem Step.job_counts {st : Step} {next : NodeId} {job : Job} (h : st.job next = .ok job) :
    Counts next job.next (labels job.code.nodes) := by
  cases st with
  | run source =>
      obtain ⟨p, last, ha, rfl⟩ := job_run h
      obtain ⟨body, -, hnum, -⟩ := analyze_stages ha
      have hc := nodesOf_number body next
      rwa [hnum] at hc
  | evaluate source =>
      obtain ⟨e, last, ha, rfl⟩ := job_evaluate h
      obtain ⟨plain, -, hnum, -⟩ := analyzeExpression_stages ha
      have hc := Expr.nodes_number plain next
      rwa [hnum] at hc

/-- The entries that resolution makes for a program: at most one for each node, and only for its uses of names,
assignments, `this` and `super`. -/
structure Job.Entered (job : Job) : Prop where
  single : (job.distances.map Prod.fst).Nodup
  uses : ∀ p ∈ job.distances, ∃ e ∈ job.code.nodes, e.isUse = true ∧ e.label = p.1

theorem Job.Accepted.entered {next : NodeId} {job : Job} (h : job.Accepted next) : job.Entered := by
  obtain ⟨hsingle, huses⟩ := entries_keys h.within.nodup
  rw [← h.distances] at hsingle huses
  refine ⟨hsingle, fun p hp => ?_⟩
  obtain ⟨e, he, hl⟩ := List.mem_map.mp ((Code.siteIds_perm job.code).mem_iff.mp (huses p hp))
  obtain ⟨hmem, huse⟩ := List.mem_filter.mp he
  exact ⟨e, hmem, huse, hl⟩

end Lox
