import Lox.Proofs.Accepting
import Lox.Proofs.Positions
import Lox.Proofs.Transport

/-! # Bindings

What a use of a name is bound to: the declaration of the name in the scope at the distance that resolution records
(`Accepted.binding?_eq_some`).  To rename a local declaration and all uses that are bound to it to a name that the
program does not have leaves each use at its distance (`Renames.use_kept`), so the program is accepted as before
(`Renames.respects`). -/

namespace Lox

/-! ### What names stand for -/

/-- The declaration before a place that a scope has of a name. -/
def Enclosure.find? : Enclosure → String → Option Lexeme
  | names _ before, n => before.find? (·.text == n)
  | _, _ => none

/-- The declaration that a name at a place stands for: that of the innermost scope which has declared it. -/
def Surroundings.binding? : Surroundings → String → Option Lexeme
  | [], _ => none
  | e :: outer, n => if e.binds n then e.find? n else Surroundings.binding? outer n

/-- The local declaration that a use of a name is bound to, counting the variable that is being initialized. -/
def Use.binding? (u : Use) : Option Lexeme :=
  if u.isOwn then u.initializing else u.around.binding? u.ref.name.text

/-- The occurrences of a local name: its declaration, and the uses that are bound to it. -/
def occurrences (body : List (Stmt NodeId)) (d : Lexeme) : List Lexeme :=
  d :: ((usesOf body).filter (·.binding? = some d)).map (·.ref.name)

/-- A lexeme, spelled `y` if it is one of the given ones. -/
def renameAt (places : List Lexeme) (y : String) (t : Lexeme) : Lexeme :=
  if t ∈ places then ⟨y, t.line⟩ else t

@[simp] theorem renameAt_line (places : List Lexeme) (y : String) (t : Lexeme) :
    (renameAt places y t).line = t.line := by
  unfold renameAt
  split <;> rfl

theorem renameAt_text (places : List Lexeme) (y : String) (t : Lexeme) :
    (renameAt places y t).text = if t ∈ places then y else t.text := by
  unfold renameAt
  split <;> rfl

section bindings

variable {around : Surroundings} {n : String} {t : Lexeme}

theorem Enclosure.find?_some {e : Enclosure} (h : e.find? n = some t) :
    ∃ all before, e = .names all before ∧ t ∈ before ∧ t.text = n := by
  cases e with
  | names all before => exact ⟨all, before, rfl, List.mem_of_find?_eq_some h, by simpa using List.find?_some h⟩
  | this => exact nomatch h
  | super => exact nomatch h

/-- A name stands for a declaration in the scope at its distance. -/
theorem Surroundings.binding?_some (h : around.binding? n = some t) :
    ∃ k all before, around.distance? n = some k ∧ around[k]? = some (.names all before) ∧ t ∈ before ∧
      t.text = n := by
  induction around with
  | nil => exact nomatch h
  | cons e outer ih =>
    unfold binding? at h
    split at h
    · rename_i hb
      obtain ⟨all, before, rfl, ht, hn⟩ := Enclosure.find?_some h
      refine ⟨0, all, before, ?_, rfl, ht, hn⟩
      rw [distance?, List.findIdx?_cons, hb]
      rfl
    · rename_i hb
      obtain ⟨k, all, before, hd, hk, ht, hn⟩ := ih h
      refine ⟨k + 1, all, before, ?_, hk, ht, hn⟩
      unfold distance? at hd ⊢
      rw [List.findIdx?_cons, (Bool.not_eq_true _).mp hb, hd]
      rfl

/-- A name at a distance stands for a declaration of the scope there, if this is the scope of a block or
function. -/
theorem Surroundings.binding?_of_distance {k : Nat} {all before : List Lexeme} (hd : around.distance? n = some k)
    (hk : around[k]? = some (.names all before)) : ∃ t ∈ before, t.text = n ∧ around.binding? n = some t := by
  induction around generalizing k with
  | nil => exact nomatch hk
  | cons e outer ih =>
    unfold distance? at hd
    rw [List.findIdx?_cons] at hd
    unfold binding?
    cases hb : e.binds n with
    | true =>
      rw [hb] at hd
      obtain rfl : 0 = k := Option.some.inj hd
      obtain rfl : e = .names all before := Option.some.inj hk
      cases hf : Enclosure.find? (.names all before) n with
      | some t =>
        obtain ⟨_, _, he, ht, hn⟩ := Enclosure.find?_some hf
        cases he
        exact ⟨t, ht, hn, rfl⟩
      | none =>
        obtain ⟨t, ht, hn⟩ := List.any_eq_true.mp hb
        exact absurd hn (List.find?_eq_none.mp hf t ht)
    | false =>
      rw [hb] at hd
      obtain ⟨j, hj, rfl⟩ := Option.map_eq_some_iff.mp hd
      exact ih hj hk

/-- A scope binds a name that is renamed with a declaration of it as it did before. -/
theorem Enclosure.binds_renamed {g : Lexeme → Lexeme} {d : Lexeme} {y : String} {e : Enclosure}
    (hg : ∀ all before, e = .names all before → ∀ t ∈ before, (g t).text = if t = d then y else t.text)
    (hb : e.binds n = true) : (e.map g).binds (if e.find? n = some d then y else n) = true := by
  cases e with
  | names all before =>
    cases hf : Enclosure.find? (.names all before) n with
    | some t =>
      obtain ⟨_, _, he, ht, rfl⟩ := Enclosure.find?_some hf
      cases he
      refine List.any_eq_true.mpr ⟨g t, List.mem_map_of_mem ht, ?_⟩
      simpa using hg all before rfl t ht
    | none =>
      obtain ⟨t, ht, hn⟩ := List.any_eq_true.mp hb
      exact absurd hn (List.find?_eq_none.mp hf t ht)
  | this => exact hb
  | super => exact hb

/-- A scope that does not bind a name does not bind it when it is renamed with a declaration further out. -/
theorem Enclosure.not_binds_renamed {g : Lexeme → Lexeme} {d : Lexeme} {y n' : String} {e : Enclosure}
    (hy : Keyword.ofText? y = none) (hn' : n' = n ∨ n' = y ∧ d.text = n) (hny : n ≠ y)
    (hg : ∀ all before, e = .names all before → ∀ t ∈ before,
      t.text ≠ y ∧ (g t).text = if t = d then y else t.text)
    (hb : e.binds n = false) : (e.map g).binds n' = false := by
  have hword : Lexeme.IsName ⟨y, 0⟩ := hy
  cases e with
  | names all before =>
    refine List.any_eq_false.mpr fun t' ht' he => ?_
    obtain ⟨t, ht, rfl⟩ := List.mem_map.mp ht'
    have htn : t.text ≠ n := by simpa using List.any_eq_false.mp hb t ht
    obtain ⟨hty, htext⟩ := hg all before rfl t ht
    have he : (if t = d then y else t.text) = n' := htext.symm.trans (by simpa using he)
    split at he
    · rename_i htd
      rcases hn' with rfl | ⟨-, hd⟩
      · exact hny he.symm
      · exact htn (htd ▸ hd)
    · rcases hn' with rfl | ⟨rfl, -⟩
      · exact htn he
      · exact hty he
  | this =>
    rcases hn' with rfl | ⟨rfl, -⟩
    · exact hb
    · exact beq_eq_false_iff_ne.mpr hword.ne_this
  | super =>
    rcases hn' with rfl | ⟨rfl, -⟩
    · exact hb
    · exact beq_eq_false_iff_ne.mpr hword.ne_super

/-- Renaming a declaration, and a name at a place when it stands for this declaration, does not change the
distance of the name. -/
theorem Surroundings.distance?_renamed {g : Lexeme → Lexeme} {d : Lexeme} {y : String}
    (hy : Keyword.ofText? y = none) (hn : n ≠ y)
    (hg : ∀ all before, .names all before ∈ around → ∀ t ∈ before,
      t.text ≠ y ∧ (g t).text = if t = d then y else t.text) :
    (around.mapNames g).distance? (if around.binding? n = some d then y else n) = around.distance? n := by
  induction around with
  | nil => rfl
  | cons e outer ih =>
    have ih := ih fun all before hm => hg all before (List.mem_cons_of_mem _ hm)
    have hg := fun all before (he : e = .names all before) => hg all before (he ▸ List.mem_cons_self)
    unfold distance? mapNames at ih ⊢
    rw [List.map_cons, List.findIdx?_cons, List.findIdx?_cons]
    unfold binding?
    cases hb : e.binds n with
    | true =>
      simp only [if_true, Enclosure.binds_renamed (fun all before he t ht => (hg all before he t ht).2) hb]
    | false =>
      have hname : (if binding? outer n = some d then y else n) = n ∨
          (if binding? outer n = some d then y else n) = y ∧ d.text = n := by
        split
        · rename_i hd
          obtain ⟨_, _, _, -, -, -, hd⟩ := binding?_some hd
          exact .inr ⟨rfl, hd⟩
        · exact .inl rfl
      simp only [Bool.false_eq_true, if_false, Enclosure.not_binds_renamed hy hname hn hg hb, ih]

theorem Use.binding?_text {u : Use} (h : u.binding? = some t) : t.text = u.ref.name.text := by
  unfold binding? at h
  split at h
  · rename_i ho
    obtain ⟨t', ht', hn⟩ := Use.exists_of_isOwn ho
    rwa [← Option.some.inj (ht'.symm.trans h)]
  · obtain ⟨_, _, _, -, -, -, hn⟩ := Surroundings.binding?_some h
    exact hn

theorem occurrences_text {body : List (Stmt NodeId)} {d : Lexeme} (h : t ∈ occurrences body d) :
    t.text = d.text := by
  rcases List.mem_cons.mp h with rfl | h
  · rfl
  · obtain ⟨u, hu, rfl⟩ := List.mem_map.mp h
    exact (Use.binding?_text (by simpa using (List.mem_filter.mp hu).2)).symm

theorem not_mem_occurrences {body : List (Stmt NodeId)} {d : Lexeme} (hd : t ≠ d)
    (hu : ∀ u ∈ usesOf body, t ≠ u.ref.name) : t ∉ occurrences body d := by
  intro hm
  rcases List.mem_cons.mp hm with he | hm
  · exact hd he
  · obtain ⟨u, hmu, he⟩ := List.mem_map.mp hm
    exact hu u (List.mem_filter.mp hmu).1 he.symm

end bindings

/-! ### Scopes and titles of trees -/

/-- The names of blocks and functions around a place. -/
def Surroundings.scopes (around : Surroundings) : List (List Lexeme) :=
  around.filterMap fun
    | .names all _ => some all
    | _ => none

theorem Surroundings.scopes_declare (around : Surroundings) (t : Lexeme) :
    (around.declare t).scopes = around.scopes := by
  match around with
  | [] => rfl
  | .names _ _ :: _ => rfl
  | .this :: _ => rfl
  | .super :: _ => rfl

theorem Surroundings.scopes_after (around : Surroundings) (s : Stmt NodeId) :
    (s.after around).scopes = around.scopes := by
  unfold Stmt.after declare?
  cases s.declared? with
  | none => rfl
  | some name => exact around.scopes_declare name

/-- The scopes around expressions are scopes of the tree they stand in, or around it. -/
def ScopesFrom (outer scopes : List (List Lexeme)) (xs : List Placed) : Prop :=
  ∀ x ∈ xs, ∀ names ∈ x.around.scopes, names ∈ outer ∨ names ∈ scopes

namespace ScopesFrom

variable {outer scopes scopes' : List (List Lexeme)} {xs xs' : List Placed}

theorem one (x : Placed) : ScopesFrom x.around.scopes [] [x] := by
  intro x' hx names hn
  rw [List.mem_singleton.mp hx] at hn
  exact .inl hn

theorem option (e : Option (Expr NodeId)) (around : Surroundings) (own : Option Lexeme) :
    ScopesFrom around.scopes [] (e.toList.map fun e => ⟨around, own, e⟩) := by
  cases e with
  | none => exact nofun
  | some e => exact one ⟨around, own, e⟩

theorem append (h : ScopesFrom outer scopes xs) (h' : ScopesFrom outer scopes' xs') :
    ScopesFrom outer (scopes ++ scopes') (xs ++ xs') := by
  intro x hx names hn
  rcases List.mem_append.mp hx with hx | hx
  · exact (h x hx names hn).imp_right (List.mem_append_left _)
  · exact (h' x hx names hn).imp_right (List.mem_append_right _)

/-- The scope that a block or a function opens. -/
theorem enter {names : List Lexeme} (h : ScopesFrom (names :: outer) scopes xs) :
    ScopesFrom outer (names :: scopes) xs := by
  intro x hx names' hn
  rcases h x hx names' hn with hn | hn
  · rcases List.mem_cons.mp hn with rfl | hn
    · exact .inr List.mem_cons_self
    · exact .inl hn
  · exact .inr (List.mem_cons_of_mem _ hn)

end ScopesFrom

mutual

theorem Stmt.scopesFrom : ∀ (s : Stmt NodeId) (around : Surroundings),
    ScopesFrom around.scopes s.scopes (s.expressions around)
  | .expression value, around => .one ⟨around, none, value⟩
  | .print value, around => .one ⟨around, none, value⟩
  | .var _ initializer, around => .option initializer around _
  | .block body, around => (Stmt.scopesFromAll body (.names (Stmt.declarations body) [] :: around)).enter
  | .ite condition yes none, around =>
      (ScopesFrom.one ⟨around, none, condition⟩).append (Stmt.scopesFrom yes around)
  | .ite condition yes (some no), around =>
      (ScopesFrom.one ⟨around, none, condition⟩).append
        ((Stmt.scopesFrom yes around).append (Stmt.scopesFrom no around))
  | .while condition body, around =>
      (ScopesFrom.one ⟨around, none, condition⟩).append (Stmt.scopesFrom body around)
  | .function decl, around => around.scopes_declare decl.name ▸ FunDecl.scopesFrom decl _
  | .ret _ value, around => .option value around none
  | .cls name none methods, around =>
      around.scopes_declare name ▸ FunDecl.scopesFromEach methods (.this :: around.declare name)
  | .cls name (some superclass) methods, around =>
      (ScopesFrom.one ⟨around, none, .name superclass⟩).append
        (around.scopes_declare name ▸
          FunDecl.scopesFromEach methods (.this :: .super :: around.declare name))

theorem Stmt.scopesFromAll : ∀ (body : List (Stmt NodeId)) (around : Surroundings),
    ScopesFrom around.scopes (Stmt.scopesAll body) (Stmt.expressionsAll around body)
  | [], _ => nofun
  | s :: body, around =>
      (Stmt.scopesFrom s around).append (around.scopes_after s ▸ Stmt.scopesFromAll body (s.after around))

theorem FunDecl.scopesFrom : ∀ (decl : FunDecl NodeId) (around : Surroundings),
    ScopesFrom around.scopes decl.scopes (decl.expressions around)
  | .mk _ params body, around =>
      (Stmt.scopesFromAll body (.names (params ++ Stmt.declarations body) params :: around)).enter

theorem FunDecl.scopesFromEach : ∀ (decls : List (FunDecl NodeId)) (around : Surroundings),
    ScopesFrom around.scopes (FunDecl.scopesEach decls) (FunDecl.expressionsEach around decls)
  | [], _ => nofun
  | decl :: decls, around =>
      (FunDecl.scopesFrom decl around).append (FunDecl.scopesFromEach decls around)

end

mutual

/-- A class with a superclass is among the functions and classes of a tree. -/
theorem Stmt.heirs_titles {ι : Type} : ∀ s : Stmt ι, ∀ p ∈ s.heirs, p.1 ∈ s.titles
  | .expression _, _, hp => nomatch hp
  | .print _, _, hp => nomatch hp
  | .var _ _, _, hp => nomatch hp
  | .block body, p, hp => Stmt.heirsAll_titles body p hp
  | .ite _ yes none, p, hp => Stmt.heirs_titles yes p hp
  | .ite _ yes (some no), p, hp =>
      List.mem_append.mpr ((List.mem_append.mp hp).imp (Stmt.heirs_titles yes p) (Stmt.heirs_titles no p))
  | .while _ body, p, hp => Stmt.heirs_titles body p hp
  | .function decl, p, hp => FunDecl.heirs_titles decl p hp
  | .ret _ _, _, hp => nomatch hp
  | .cls _ none methods, p, hp => List.mem_cons_of_mem _ (FunDecl.heirsEach_titles methods p hp)
  | .cls name (some superclass) methods, p, hp => by
      rcases List.mem_cons.mp hp with rfl | hp
      · exact List.mem_cons_self
      · exact List.mem_cons_of_mem _ (FunDecl.heirsEach_titles methods p hp)

theorem Stmt.heirsAll_titles {ι : Type} : ∀ body : List (Stmt ι), ∀ p ∈ Stmt.heirsAll body,
    p.1 ∈ Stmt.titlesAll body
  | [], _, hp => nomatch hp
  | s :: body, p, hp =>
      List.mem_append.mpr ((List.mem_append.mp hp).imp (Stmt.heirs_titles s p) (Stmt.heirsAll_titles body p))

theorem FunDecl.heirs_titles {ι : Type} : ∀ decl : FunDecl ι, ∀ p ∈ decl.heirs, p.1 ∈ decl.titles
  | .mk _ _ body, p, hp => List.mem_cons_of_mem _ (Stmt.heirsAll_titles body p hp)

theorem FunDecl.heirsEach_titles {ι : Type} : ∀ decls : List (FunDecl ι), ∀ p ∈ FunDecl.heirsEach decls,
    p.1 ∈ FunDecl.titlesEach decls
  | [], _, hp => nomatch hp
  | decl :: decls, p, hp =>
      List.mem_append.mpr
        ((List.mem_append.mp hp).imp (FunDecl.heirs_titles decl p) (FunDecl.heirsEach_titles decls p))

end

/-- The names that scopes declare are no reserved words. -/
def AllNames (scopes : List (List Lexeme)) : Prop := ∀ names ∈ scopes, ∀ t ∈ names, t.IsName

theorem AllNames.append {scopes scopes' : List (List Lexeme)} (h : AllNames scopes) (h' : AllNames scopes') :
    AllNames (scopes ++ scopes') := List.forall_mem_append.mpr ⟨h, h'⟩

mutual

theorem Stmt.Formed.allNames {ι : Type} : ∀ {s : Stmt ι}, s.Formed → AllNames s.scopes
  | .expression _, _ => nofun
  | .print _, _ => nofun
  | .var _ _, _ => nofun
  | .block _, h => List.forall_mem_cons.mpr ⟨Stmt.FormedAll.isName h, Stmt.FormedAll.allNames h⟩
  | .ite _ _ none, h => h.2.1.allNames
  | .ite _ _ (some _), h => h.2.1.1.allNames.append h.2.2.1.allNames
  | .while _ _, h => h.2.1.allNames
  | .function _, h => FunDecl.Formed.allNames h.2
  | .ret _ _, _ => nofun
  | .cls _ _ _, h => FunDecl.FormedEach.allNames h.2.2

theorem Stmt.FormedAll.allNames {ι : Type} : ∀ {body : List (Stmt ι)}, Stmt.FormedAll body →
    AllNames (Stmt.scopesAll body)
  | [], _ => nofun
  | _ :: _, h => h.1.allNames.append (Stmt.FormedAll.allNames h.2)

theorem FunDecl.Formed.allNames {ι : Type} : ∀ {decl : FunDecl ι}, decl.Formed → AllNames decl.scopes
  | .mk _ _ _, h => List.forall_mem_cons.mpr
      ⟨List.forall_mem_append.mpr ⟨h.1, Stmt.FormedAll.isName h.2⟩, Stmt.FormedAll.allNames h.2⟩

theorem FunDecl.FormedEach.allNames {ι : Type} : ∀ {decls : List (FunDecl ι)}, FunDecl.FormedEach decls →
    AllNames (FunDecl.scopesEach decls)
  | [], _ => nofun
  | _ :: _, h => (FunDecl.Formed.allNames h.1).append (FunDecl.FormedEach.allNames h.2)

end

/-! ### Renaming a local name -/

/-- What a name is in a scope after the declaration `d` is renamed: the scope says which names are declared
there. -/
def twinOf (d : Lexeme) (y : String) (names : List Lexeme) (n : String) : String :=
  if d ∈ names ∧ n = d.text then y else n

/-- A local variable or parameter that can be renamed to a name that the program does not have. -/
structure Renames (body : List (Stmt NodeId)) (ds : Distances) (d : Lexeme) (y : String) : Prop where
  accepted : Accepted body ds
  apart : Apart body
  declared : d ∈ (Stmt.scopesAll body).flatten
  not_title : d ∉ Stmt.titlesAll body
  fresh : ∀ t ∈ Stmt.lexemesAll body, t.text ≠ y
  isName : Keyword.ofText? y = none

section scopes

variable {body : List (Stmt NodeId)}

theorem scope_subset {names : List Lexeme} (hn : names ∈ Stmt.scopesAll body) {t : Lexeme} (ht : t ∈ names) :
    t ∈ (Stmt.scopesAll body).flatten := List.mem_flatten.mpr ⟨names, hn, ht⟩

/-- The scopes around a use of a name are scopes of the program. -/
theorem scope_mem {u : Use} (hu : u ∈ usesOf body) {all before : List Lexeme}
    (he : .names all before ∈ u.around) : all ∈ Stmt.scopesAll body := by
  obtain ⟨x, hx, hxu⟩ := List.mem_flatMap.mp hu
  obtain ⟨_, -, rfl⟩ := List.mem_map.mp hxu
  exact (Stmt.scopesFromAll body [] x hx all (List.mem_filterMap.mpr ⟨_, he, rfl⟩)).resolve_left nofun

end scopes

/-! ### Uses in accepted programs -/

section uses

variable {body : List (Stmt NodeId)} {ds : Distances} (h : Accepted body ds)

/-- At a distance that does not lead to a block or function no name changes. -/
theorem Surroundings.twin_of_not_names {τ : List Lexeme → String → String} {around : Surroundings}
    {d : Option Nat} {n : String}
    (hd : ∀ k all before, d = some k → around[k]? ≠ some (.names all before)) : around.twin τ d n = n := by
  cases d with
  | none => rfl
  | some k =>
    unfold twin
    rw [Option.bind_some]
    cases he : around[k]? with
    | none => rfl
    | some e =>
      cases e with
      | names all before => exact absurd he (hd k all before rfl)
      | _ => rfl

include h

theorem Accepted.use_sound {u : Use} (hu : u ∈ usesOf body) : u.Sound := by
  obtain ⟨x, hx, hxu⟩ := List.mem_flatMap.mp hu
  have hs : ∀ x ∈ Stmt.expressionsAll [] body, x.Sound :=
    Stmt.expressionsAll_sound body h.formed nofun fun _ _ => rfl
  exact (hs x hx).uses u hxu

/-- A use of a name that has a distance to the scope of a block or function is bound to a name of this scope;
any other use is not bound. -/
theorem Accepted.use_bound {u : Use} (hu : u ∈ usesOf body) :
    (∃ k all before t, u.distance? = some k ∧ u.around[k]? = some (.names all before) ∧ t ∈ all ∧
        t.text = u.ref.name.text ∧ u.binding? = some t) ∨
      u.binding? = none ∧ ∀ k all before, u.distance? = some k → u.around[k]? ≠ some (.names all before) := by
  have hs := h.use_sound hu
  unfold Use.distance? Use.binding?
  cases ho : u.isOwn with
  | true =>
    obtain ⟨t, ht, hn⟩ := Use.exists_of_isOwn ho
    obtain ⟨all, before, outer, ha, hm⟩ := hs.own t ht
    exact .inl ⟨0, all, before, t, rfl, by rw [ha]; rfl, hm, hn, ht⟩
  | false =>
    rw [if_neg Bool.false_ne_true, if_neg Bool.false_ne_true]
    cases hd : u.around.distance? u.ref.name.text with
    | none =>
      refine .inr ⟨?_, nofun⟩
      cases hb : u.around.binding? u.ref.name.text with
      | none => rfl
      | some t =>
        obtain ⟨k, _, _, hk, -⟩ := Surroundings.binding?_some hb
        exact nomatch hd.symm.trans hk
    | some k =>
      by_cases hk : ∃ all before, u.around[k]? = some (.names all before)
      · obtain ⟨all, before, he⟩ := hk
        obtain ⟨t, ht, hn, hb⟩ := Surroundings.binding?_of_distance hd he
        exact .inl ⟨k, all, before, t, rfl, he, (hs.around _ (List.mem_of_getElem? he)).2 t ht, hn, hb⟩
      · refine .inr ⟨?_, ?_⟩
        · cases hb : u.around.binding? u.ref.name.text with
          | none => rfl
          | some t =>
            obtain ⟨k', all, before, hk', hget, -⟩ := Surroundings.binding?_some hb
            obtain rfl := Option.some.inj (hd.symm.trans hk')
            exact absurd ⟨all, before, hget⟩ hk
        · rintro _ all before ⟨⟩ he
          exact hk ⟨all, before, he⟩

/-- A use of a name is bound to the declaration of this name in the scope at the distance that resolution
records. -/
theorem Accepted.binding?_eq_some {u : Use} (hu : u ∈ usesOf body) {t : Lexeme} : u.binding? = some t ↔
    ∃ k all before, u.distance? = some k ∧ u.around[k]? = some (.names all before) ∧ t ∈ all ∧
      t.text = u.ref.name.text := by
  rcases h.use_bound hu with ⟨k, all, before, t', hd, hk, ht', hn', hb⟩ | ⟨hb, hnone⟩
  · rw [hb]
    refine ⟨fun he => ?_, fun ⟨k', all', before', hd', hk', ht, hn⟩ => ?_⟩
    · cases he
      exact ⟨k, all, before, hd, hk, ht', hn'⟩
    · obtain rfl := Option.some.inj (hd.symm.trans hd')
      cases hk.symm.trans hk'
      have hdistinct := h.neat.distinct all (scope_mem hu (List.mem_of_getElem? hk))
      exact congrArg some (List.inj_on_of_nodup_map hdistinct ht' ht (hn'.trans hn.symm))
  · rw [hb]
    exact ⟨nofun, fun ⟨k, all, before, hd, hk, _⟩ => absurd hk (hnone k all before hd)⟩

end uses

namespace Renames

variable {body : List (Stmt NodeId)} {ds : Distances} {d : Lexeme} {y : String} (h : Renames body ds d y)

include h

theorem fresh_use {u : Use} (hu : u ∈ usesOf body) : u.ref.name.text ≠ y :=
  h.fresh _ ((Stmt.declared_subperm body).subset
    (List.mem_append_left _ (List.mem_append_left _ (List.mem_map_of_mem hu))))

theorem fresh_local {t : Lexeme} (ht : t ∈ (Stmt.scopesAll body).flatten) : t.text ≠ y :=
  h.fresh _ ((Stmt.declared_subperm body).subset (List.mem_append_right _ (List.mem_append_right _ ht)))

theorem fresh_title {t : Lexeme} (ht : t ∈ Stmt.titlesAll body) : t.text ≠ y :=
  h.fresh _ ((Stmt.titles_subperm body).subset (List.mem_append_right _ ht))

/-! #### Which lexemes are renamed -/

theorem use_mem {u : Use} (hu : u ∈ usesOf body) :
    u.ref.name ∈ occurrences body d ↔ u.binding? = some d := by
  refine ⟨fun hm => ?_, fun hb => ?_⟩
  · rcases List.mem_cons.mp hm with he | hm
    · exact absurd (he ▸ h.declared) (h.apart.use_alone hu).2.2.1
    · obtain ⟨v, hv, he⟩ := List.mem_map.mp hm
      obtain ⟨hv, hb⟩ := List.mem_filter.mp hv
      rw [← h.apart.uses_inj hu hv he]
      simpa using hb
  · exact List.mem_cons_of_mem _ (List.mem_map_of_mem (List.mem_filter.mpr ⟨hu, by simpa using hb⟩))

theorem local_mem {t : Lexeme} (ht : t ∈ (Stmt.scopesAll body).flatten) : t ∈ occurrences body d ↔ t = d := by
  refine ⟨fun hm => ?_, fun he => he ▸ List.mem_cons_self⟩
  by_contra hne
  refine not_mem_occurrences hne (fun u hu he => ?_) hm
  exact (h.apart.use_alone hu).2.2.1 (he ▸ ht)

/-- What becomes of a local declaration. -/
theorem local_renamed {t : Lexeme} (ht : t ∈ (Stmt.scopesAll body).flatten) :
    (renameAt (occurrences body d) y t).text = if t = d then y else t.text := by
  rw [renameAt_text]
  simp only [h.local_mem ht]

/-- What becomes of a use of a name. -/
theorem use_renamed {u : Use} (hu : u ∈ usesOf body) :
    (renameAt (occurrences body d) y u.ref.name).text =
      if u.binding? = some d then y else u.ref.name.text := by
  rw [renameAt_text]
  simp only [h.use_mem hu]

theorem title_not_mem {t : Lexeme} (ht : t ∈ Stmt.titlesAll body) : t ∉ occurrences body d :=
  not_mem_occurrences (fun he => h.not_title (he ▸ ht)) fun _ hu he => (h.apart.use_alone hu).2.2.2 (he ▸ ht)

theorem global_not_mem {t : Lexeme} (ht : t ∈ Stmt.declarations body) : t ∉ occurrences body d :=
  not_mem_occurrences (fun he => (h.apart.local_alone h.declared).2 (he ▸ ht))
    fun _ hu he => (h.apart.use_alone hu).2.1 (he ▸ ht)

theorem mark_not_mem {t : Lexeme} (ht : t ∈ markNames (Stmt.expressionsAll [] body)) : t ∉ occurrences body d :=
  not_mem_occurrences (fun he => (h.apart.local_alone h.declared).1 (he ▸ ht))
    fun _ hu he => (h.apart.use_alone hu).1 (he ▸ ht)

/-! #### What the names of a scope become -/

/-- A name of a scope is spelled like the declaration only when it is the declaration. -/
theorem eq_declaration {names : List Lexeme} (hn : names ∈ Stmt.scopesAll body) {t : Lexeme} (ht : t ∈ names) :
    d ∈ names ∧ t.text = d.text ↔ t = d := by
  refine ⟨fun ⟨hd, he⟩ => ?_, fun he => he ▸ ⟨ht, rfl⟩⟩
  exact List.inj_on_of_nodup_map (h.accepted.neat.distinct names hn) ht hd he

theorem local_text {names : List Lexeme} (hn : names ∈ Stmt.scopesAll body) {t : Lexeme} (ht : t ∈ names) :
    (renameAt (occurrences body d) y t).text = twinOf d y names t.text := by
  rw [h.local_renamed (scope_subset hn ht), twinOf]
  simp only [h.eq_declaration hn ht]

/-- Different names of a scope stay different. -/
theorem twinOf_injective {names : List Lexeme} (hn : names ∈ Stmt.scopesAll body) :
    ∀ a ∈ names.map Lexeme.text, ∀ b ∈ names.map Lexeme.text, twinOf d y names a = twinOf d y names b → a = b := by
  have hfresh : ∀ a ∈ names.map Lexeme.text, a ≠ y := by
    intro a ha
    obtain ⟨t, ht, rfl⟩ := List.mem_map.mp ha
    exact h.fresh_local (scope_subset hn ht)
  intro a ha b hb
  unfold twinOf
  split <;> split <;> rename_i ha' hb'
  · exact fun _ => ha'.2.trans hb'.2.symm
  · exact fun he => absurd he.symm (hfresh b hb)
  · exact fun he => absurd he (hfresh a ha)
  · exact id

theorem distinct {names : List Lexeme} (hn : names ∈ Stmt.scopesAll body) :
    Distinct (names.map (renameAt (occurrences body d) y)) := by
  have htexts : (names.map (renameAt (occurrences body d) y)).map Lexeme.text =
      (names.map Lexeme.text).map (twinOf d y names) := by
    rw [List.map_map, List.map_map]
    exact List.map_congr_left fun t ht => h.local_text hn ht
  rw [Distinct, htexts]
  exact (h.accepted.neat.distinct names hn).map_on (h.twinOf_injective hn)

/-! #### What uses of names become -/

/-- A use of a name becomes what the scope at its distance says. -/
theorem use_text {u : Use} (hu : u ∈ usesOf body) :
    (renameAt (occurrences body d) y u.ref.name).text =
      u.around.twin (twinOf d y) u.distance? u.ref.name.text := by
  rw [h.use_renamed hu]
  rcases h.accepted.use_bound hu with ⟨k, all, before, t, hd, hk, ht, hn, hb⟩ | ⟨hb, hnone⟩
  · have hall := scope_mem hu (List.mem_of_getElem? hk)
    rw [hb, hd, Surroundings.twin_of_getElem? hk, ← hn]
    change _ = twinOf d y all t.text
    simp only [twinOf, h.eq_declaration hall ht, Option.some.injEq]
  · rw [hb, Surroundings.twin_of_not_names hnone, if_neg nofun]

/-- What becomes of the variable in whose initializer a use stands. -/
theorem own_text {u : Use} (hu : u ∈ usesOf body) {t : Lexeme} (ht : u.initializing = some t) :
    t.text ≠ y ∧ (renameAt (occurrences body d) y t).text = if t = d then y else t.text := by
  obtain ⟨all, before, outer, ha, hm⟩ := (h.accepted.use_sound hu).own t ht
  have hall : all ∈ Stmt.scopesAll body := scope_mem hu (ha ▸ List.mem_cons_self)
  have hmem := scope_subset hall hm
  exact ⟨h.fresh_local hmem, h.local_renamed hmem⟩

/-- A use in an initializer names the variable there when it did before. -/
theorem use_own {u : Use} (hu : u ∈ usesOf body) :
    (u.map id (renameAt (occurrences body d) y)).isOwn = u.isOwn := by
  cases hi : u.initializing with
  | none => simp only [Use.isOwn, Use.map, hi, Option.map_none, Option.any_none]
  | some t =>
    obtain ⟨hty, htext⟩ := h.own_text hu hi
    have hown : u.isOwn = (t.text == u.ref.name.text) := by rw [Use.isOwn, hi, Option.any_some]
    have hown' : (u.map id (renameAt (occurrences body d) y)).isOwn =
        ((if t = d then y else t.text) == if u.binding? = some d then y else u.ref.name.text) := by
      rw [← htext, ← h.use_renamed hu]
      simp only [Use.isOwn, Use.map, hi, Option.map_some, Option.any_some]
      rfl
    rw [hown', hown]
    cases ho : u.isOwn with
    | true =>
      have hbind : u.binding? = some t := by rw [Use.binding?, ho, if_pos rfl, hi]
      rw [hbind]
      rw [hown] at ho
      by_cases htd : t = d <;> simp [htd, ← beq_iff_eq.mp ho]
    | false =>
      have hne : t.text ≠ u.ref.name.text := by
        rw [hown] at ho
        exact beq_eq_false_iff_ne.mp ho
      have hfresh := h.fresh_use hu
      rw [beq_eq_false_iff_ne.mpr hne, beq_eq_false_iff_ne]
      split <;> split <;> rename_i htd hbd
      · exact absurd (htd ▸ Use.binding?_text hbd) hne
      · exact hfresh.symm
      · exact hty
      · exact hne

/-- A use of a name keeps its distance. -/
theorem use_kept {u : Use} (hu : u ∈ usesOf body) : u.Kept (renameAt (occurrences body d) y) := by
  have hown := h.use_own hu
  refine ⟨hown, ?_⟩
  unfold Use.distance?
  rw [hown]
  cases ho : u.isOwn with
  | true => rfl
  | false =>
    have hbind : u.binding? = u.around.binding? u.ref.name.text := by
      rw [Use.binding?, ho, if_neg Bool.false_ne_true]
    rw [if_neg Bool.false_ne_true, if_neg Bool.false_ne_true]
    change Surroundings.distance? (u.around.mapNames _) (renameAt (occurrences body d) y u.ref.name).text = _
    rw [h.use_renamed hu, hbind]
    refine Surroundings.distance?_renamed h.isName (h.fresh_use hu) fun all before he t ht => ?_
    have hmem := scope_subset (scope_mem hu he) (((h.accepted.use_sound hu).around _ he).2 t ht)
    exact ⟨h.fresh_local hmem, h.local_renamed hmem⟩

/-- The declaration is no reserved word. -/
theorem declaration_isName : d.IsName := by
  obtain ⟨names, hn, hd⟩ := List.mem_flatten.mp h.declared
  exact Stmt.FormedAll.allNames h.accepted.formed names hn d hd

/-- A program respects the renaming of a local name. -/
theorem respects : Respects (renameAt (occurrences body d) y) body where
  words t := by
    unfold renameAt
    split
    · rename_i ht
      have hword : Keyword.ofText? t.text = none := by
        rw [occurrences_text ht]
        exact h.declaration_isName
      rw [hword]
      exact h.isName
    · rfl
  kept _ hu := h.use_kept hu
  distinct _ hn := h.distinct hn
  acyclic p hp := by
    have hne := h.accepted.neat.acyclic p hp
    have htitle := Stmt.heirsAll_titles body p hp
    rw [renameAt_text, renameAt_text, if_neg (h.title_not_mem htitle)]
    split
    · exact (h.fresh_title htitle).symm
    · exact hne

end Renames

/-! ### Other numbers -/

section numbers

variable (f : NodeId → NodeId)

theorem Surroundings.mapNames_id (around : Surroundings) : around.mapNames id = around := by
  refine List.map_id'' (fun e => ?_) around
  cases e <;> simp [Enclosure.map]

theorem Use.binding?_renumbered (u : Use) : (u.map f id).binding? = u.binding? := by
  simp only [Use.binding?, Use.isOwn, Use.map, Option.map_id_fun, id, Surroundings.mapNames_id, Reference.map]
  rfl

/-- The occurrences of a name do not depend on how nodes are numbered. -/
theorem occurrences_renumbered (body : List (Stmt NodeId)) (d : Lexeme) :
    occurrences (Stmt.mapAll f id body) d = occurrences body d := by
  simp only [occurrences, usesOf_map, List.filter_map, List.map_map, Function.comp_def,
    Use.binding?_renumbered]
  rfl

theorem Renames.renumbered {body : List (Stmt NodeId)} {ds : Distances} {d : Lexeme} {y : String}
    (h : Renames body ds d y) : Renames (Stmt.mapAll f id body) (ds.relabel f) d y where
  accepted := h.accepted.map (.of_text (fun _ => rfl) h.accepted) f
  apart := by
    rw [Apart, Stmt.lexemesAll_map]
    exact h.apart
  declared := by
    have hid : List.map (id : Lexeme → Lexeme) = id := funext List.map_id
    rw [Stmt.scopesAll_map, hid, List.map_id]
    exact h.declared
  not_title := by
    rw [Stmt.titlesAll_map, List.map_id]
    exact h.not_title
  fresh := by
    rw [Stmt.lexemesAll_map]
    exact h.fresh
  isName := h.isName

end numbers

end Lox
