import Lox.Proofs.Identities

/-! # Sites

What the rules of resolution are about, place by place: declarations, uses of names, superclasses and
returns, each with the constructs around it and the names that their scopes declared before it (`Site`).
What a site violates and how far out a name is declared can be read off the site alone, without a walk
(`Site.violation?`, `Path.distance?`).  The sites of a program are listed in the order of resolution
(`Stmt.sitesAll`). -/

namespace Lox

/-! ### Paths -/

/-- A construct around a place.  A block or a function declares names, some of them before the place; a
class has one scope around its methods that binds `this` and, if it has a superclass, one around this
that binds `super`. -/
inductive Construct where
  | block (before : List String)
  | function (decl : FunDecl NodeId) (before : List String)
  | cls (name : Lexeme) (superclass : Option (Reference NodeId)) (methods : List (FunDecl NodeId))

/-- The names in the scopes of a construct, innermost first. -/
def Construct.scopes : Construct → List (List String)
  | block before => [before]
  | function _ before => [before]
  | cls _ none _ => [["this"]]
  | cls _ (some _) _ => [["this"], ["super"]]

/-- The constructs around a place, innermost first. -/
abbrev Path := List Construct

namespace Path

/-- The names in the local scopes around a place, innermost first. -/
def scopes (path : Path) : List (List String) := path.flatMap Construct.scopes

/-- How many scopes lie strictly inside the innermost one that has a name. -/
def distance? (path : Path) (n : String) : Option Nat := path.scopes.findIdx? (·.contains n)

/-- The scope at a distance has a name, and none inside it does. -/
structure Locates (path : Path) (n : String) (d : Nat) : Prop where
  here : ∃ names, path.scopes[d]? = some names ∧ n ∈ names
  nearest : ∀ j names, j < d → path.scopes[j]? = some names → n ∉ names

theorem distance?_eq_some_iff {path : Path} {n : String} {d : Nat} :
    path.distance? n = some d ↔ path.Locates n d := by
  unfold distance?
  rw [List.findIdx?_eq_some_iff_getElem]
  constructor
  · rintro ⟨hd, hn, hlt⟩
    refine ⟨⟨path.scopes[d], List.getElem?_eq_getElem hd, by simpa using hn⟩, fun j names hj hs => ?_⟩
    obtain ⟨hjl, rfl⟩ := List.getElem?_eq_some_iff.mp hs
    simpa using hlt j hj
  · rintro ⟨⟨names, hs, hn⟩, hlt⟩
    obtain ⟨hd, rfl⟩ := List.getElem?_eq_some_iff.mp hs
    exact ⟨hd, by simpa using hn, fun j hj => by simpa using hlt j _ hj (List.getElem?_eq_getElem _)⟩

/-- Is the place in a local scope? -/
def isLocal (path : Path) : Bool := !path.scopes.isEmpty

/-- Is the place in a local scope that has a name already? -/
def has (path : Path) (n : String) : Bool := path.scopes.head?.any (·.contains n)

/-- Is the place in a function or a method? -/
def inFunction : Path → Bool
  | [] => false
  | .function _ _ :: _ => true
  | _ :: outer => inFunction outer

/-- The innermost class around the place, if there is one: has it a superclass? -/
def hasSuperclass? : Path → Option Bool
  | [] => none
  | .cls _ superclass _ :: _ => some superclass.isSome
  | _ :: outer => hasSuperclass? outer

/-- The path after a declaration of a name. -/
def declare : Path → String → Path
  | .block before :: outer, n => .block (n :: before) :: outer
  | .function decl before :: outer, n => .function decl (n :: before) :: outer
  | path, _ => path

/-- The path after declarations, in order. -/
def declareAll (path : Path) (names : List Lexeme) : Path := names.foldl (fun p t => p.declare t.text) path

/-- The variable that is being initialized, if it is local and new in its scope. -/
def initializing? (path : Path) (name : Lexeme) : Option String :=
  if path.isLocal && !path.has name.text then some name.text else none

end Path

/-! ### Sites and what they violate -/

/-- What a rule of resolution is about. -/
inductive Mention where
  /-- A declaration. -/
  | declares (name : Lexeme)
  /-- A use of a name, and the variable in whose initializer it stands, if this is local and new. -/
  | uses (kind : UseKind) (ref : Reference NodeId) (own : Option String)
  /-- The superclass of a class of a given name. -/
  | inherits (name superclass : Lexeme)
  /-- A `return`. -/
  | returns (keyword : Lexeme)

/-- What a rule of resolution is about, at its place. -/
structure Site where
  mention : Mention
  path : Path

namespace Site

/-- The rule that a site violates, if it does: no scope but that of globals has a name twice, no new local
variable is read in its own initializer, no class is its own superclass, a `return` stands in a function,
`this` in a class, and `super` in a class that has a superclass. -/
def violation? (site : Site) : Option ScopeError :=
  match site.mention with
  | .declares name => if site.path.has name.text then some ⟨.redeclared, name⟩ else none
  | .uses .read ref own => if own = some ref.name.text then some ⟨.readInOwnInitializer, ref.name⟩ else none
  | .uses .write _ _ => none
  | .uses .this ref _ =>
    match site.path.hasSuperclass? with
    | none => some ⟨.thisOutsideClass, ref.name⟩
    | some _ => none
  | .uses .super ref _ =>
    match site.path.hasSuperclass? with
    | none => some ⟨.superOutsideClass, ref.name⟩
    | some false => some ⟨.superWithoutSuperclass, ref.name⟩
    | some true => none
  | .inherits name superclass =>
    if superclass.text = name.text then some ⟨.inheritsFromItself, superclass⟩ else none
  | .returns keyword => if site.path.inFunction then none else some ⟨.returnOutsideFunction, keyword⟩

/-- The reference of a site that is a use of a name. -/
def reference? (site : Site) : Option (Reference NodeId) :=
  match site.mention with
  | .uses _ ref _ => some ref
  | _ => none

/-- The distance of a site that is a use of a name. -/
def entry? (site : Site) : Option (NodeId × Nat) :=
  site.reference?.bind fun ref => (site.path.distance? ref.name.text).map fun d => (ref.id, d)

end Site

/-- What sites violate, in order. -/
def violations (sites : List Site) : List ScopeError := sites.filterMap Site.violation?

/-- The distances of the uses of names among sites, the latest first. -/
def entries (sites : List Site) : Distances := (sites.filterMap Site.entry?).reverse

theorem violations_append (a b : List Site) : violations (a ++ b) = violations a ++ violations b :=
  List.filterMap_append

theorem entries_append (a b : List Site) : entries (a ++ b) = entries b ++ entries a := by
  simp [entries]

theorem violations_single (site : Site) : violations [site] = site.violation?.toList := by
  cases h : site.violation? <;> simp [violations, h]

theorem entries_single (site : Site) : entries [site] = site.entry?.toList := by
  cases h : site.entry? <;> simp [entries, h]

/-! ### The sites of a program -/

/-- Uses of names that stand at one place, as sites. -/
def usesSites (path : Path) (own : Option String) (refs : List (UseKind × Reference NodeId)) : List Site :=
  refs.map fun (kind, ref) => ⟨.uses kind ref own, path⟩

/-- Declarations at a place, one after the other. -/
def declaresSites (path : Path) : List Lexeme → List Site
  | [] => []
  | t :: ts => ⟨.declares t, path⟩ :: declaresSites (path.declare t.text) ts

/-- The names that a statement declares in the scope it stands in.  No branch or loop body is a declaration
in what the grammar yields; if it were, it would belong to the same scope. -/
def Stmt.introduced : Stmt NodeId → List Lexeme
  | .var name _ => [name]
  | .function decl => [decl.name]
  | .cls name _ _ => [name]
  | .ite _ yes none => yes.introduced
  | .ite _ yes (some no) => yes.introduced ++ no.introduced
  | .while _ body => body.introduced
  | _ => []

/-- The sites of an expression that is no initializer. -/
def Expr.sites (path : Path) (e : Expr NodeId) : List Site := usesSites path none e.references

mutual

/-- The sites of a statement at a place, in the order of resolution. -/
def Stmt.sites (path : Path) : Stmt NodeId → List Site
  | .expression value => value.sites path
  | .print value => value.sites path
  | .var name initializer =>
    ⟨.declares name, path⟩ :: initializer.toList.flatMap fun e =>
      usesSites (path.declare name.text) (path.initializing? name) e.references
  | .block body => Stmt.sitesAll (.block [] :: path) body
  | .ite condition yes none => condition.sites path ++ yes.sites path
  | .ite condition yes (some no) =>
    condition.sites path ++ (yes.sites path ++ no.sites (path.declareAll yes.introduced))
  | .while condition body => condition.sites path ++ body.sites path
  | .function decl => ⟨.declares decl.name, path⟩ :: decl.sites (path.declare decl.name.text)
  | .ret keyword value => ⟨.returns keyword, path⟩ :: value.toList.flatMap (·.sites path)
  | .cls name none methods =>
    ⟨.declares name, path⟩ ::
      FunDecl.sitesEach (.cls name none methods :: path.declare name.text) methods
  | .cls name (some superclass) methods =>
    ⟨.declares name, path⟩ :: ⟨.inherits name superclass.name, path.declare name.text⟩ ::
      ((Expr.name superclass).sites (path.declare name.text) ++
        FunDecl.sitesEach (.cls name (some superclass) methods :: path.declare name.text) methods)

/-- The sites of statements in order: a statement sees the declarations before it. -/
def Stmt.sitesAll (path : Path) : List (Stmt NodeId) → List Site
  | [] => []
  | s :: rest => s.sites path ++ Stmt.sitesAll (path.declareAll s.introduced) rest

/-- The sites of a function: its parameters and its body share a scope. -/
def FunDecl.sites (path : Path) : FunDecl NodeId → List Site
  | .mk name params body =>
    declaresSites (.function (.mk name params body) [] :: path) params ++
      Stmt.sitesAll (Path.declareAll (.function (.mk name params body) [] :: path) params) body

/-- The sites of functions in order. -/
def FunDecl.sitesEach (path : Path) : List (FunDecl NodeId) → List Site
  | [] => []
  | decl :: rest => decl.sites path ++ FunDecl.sitesEach path rest

end

/-- The sites of a program. -/
def sitesOf (body : List (Stmt NodeId)) : List Site := Stmt.sitesAll [] body

theorem usesSites_append (path : Path) (own : Option String) (rs rs' : List (UseKind × Reference NodeId)) :
    usesSites path own (rs ++ rs') = usesSites path own rs ++ usesSites path own rs' := List.map_append

/-! ### The numbers of uses -/

section numbers

/-- The numbers of the uses of names among sites. -/
def siteIds (sites : List Site) : List NodeId := sites.filterMap fun site => site.reference?.map Reference.id

theorem siteIds_append (a b : List Site) : siteIds (a ++ b) = siteIds a ++ siteIds b := List.filterMap_append

theorem siteIds_uses (path : Path) (own : Option String) (refs : List (UseKind × Reference NodeId)) :
    siteIds (usesSites path own refs) = referenceIds refs := by
  induction refs with
  | nil => rfl
  | cons r refs ih => exact congrArg (r.2.id :: ·) ih

theorem siteIds_declares (path : Path) (ts : List Lexeme) : siteIds (declaresSites path ts) = [] := by
  induction ts generalizing path with
  | nil => rfl
  | cons t ts ih => exact ih _

/-- The numbers of the uses of names in expressions. -/
def placedIds (xs : List Placed) : List NodeId := idsOf (fun e => referenceIds e.references) xs

theorem placedIds_append (xs xs' : List Placed) : placedIds (xs ++ xs') = placedIds xs ++ placedIds xs' :=
  idsOf_append xs xs'

theorem placedIds_cons (around : Surroundings) (own : Option Lexeme) (e : Expr NodeId) (xs : List Placed) :
    placedIds (⟨around, own, e⟩ :: xs) = referenceIds e.references ++ placedIds xs := idsOf_cons ..

theorem siteIds_option (path : Path) (own : Option String) (around : Surroundings) (own' : Option Lexeme)
    (e : Option (Expr NodeId)) :
    siteIds (e.toList.flatMap fun e => usesSites path own e.references) =
      placedIds (e.toList.map fun e => ⟨around, own', e⟩) := by
  cases e with
  | none => rfl
  | some e =>
      rw [Option.toList_some, List.flatMap_singleton, siteIds_uses, List.map_singleton, placedIds_cons]
      exact (List.append_nil _).symm

theorem siteIds_expr (path : Path) (around : Surroundings) (e : Expr NodeId) {sites : List Site}
    {xs : List Placed} (h : siteIds sites = placedIds xs) :
    siteIds (e.sites path ++ sites) = placedIds (⟨around, none, e⟩ :: xs) := by
  rw [siteIds_append, Expr.sites, siteIds_uses, h, placedIds_cons]

mutual

/-- The uses of names among the sites of a statement are those in its expressions. -/
theorem Stmt.siteIds_sites : ∀ (s : Stmt NodeId) (path : Path) (around : Surroundings),
    siteIds (s.sites path) = placedIds (s.expressions around)
  | .expression value, path, around => by
      rw [Stmt.sites, Stmt.expressions, ← List.append_nil (value.sites path)]
      exact siteIds_expr path around value rfl
  | .print value, path, around => by
      rw [Stmt.sites, Stmt.expressions, ← List.append_nil (value.sites path)]
      exact siteIds_expr path around value rfl
  | .var name initializer, path, around =>
      siteIds_option (path.declare name.text) (path.initializing? name) around (around.initializing name)
        initializer
  | .block body, path, around => Stmt.siteIds_sitesAll body _ _
  | .ite condition yes none, path, around =>
      siteIds_expr path around condition (Stmt.siteIds_sites yes path around)
  | .ite condition yes (some no), path, around => by
      refine siteIds_expr path around condition ?_
      rw [siteIds_append, placedIds_append, Stmt.siteIds_sites yes path around,
        Stmt.siteIds_sites no _ around]
  | .while condition body, path, around =>
      siteIds_expr path around condition (Stmt.siteIds_sites body path around)
  | .function decl, path, around => FunDecl.siteIds_sites decl _ _
  | .ret _ value, path, around => siteIds_option path none around none value
  | .cls name none methods, path, around => FunDecl.siteIds_sitesEach methods _ _
  | .cls name (some superclass) methods, path, around =>
      siteIds_expr _ around (.name superclass) (FunDecl.siteIds_sitesEach methods _ _)

theorem Stmt.siteIds_sitesAll : ∀ (body : List (Stmt NodeId)) (path : Path) (around : Surroundings),
    siteIds (Stmt.sitesAll path body) = placedIds (Stmt.expressionsAll around body)
  | [], _, _ => rfl
  | s :: body, path, around => by
      rw [Stmt.sitesAll, siteIds_append, Stmt.siteIds_sites s path around,
        Stmt.siteIds_sitesAll body _ (s.after around), Stmt.expressionsAll, placedIds_append]

theorem FunDecl.siteIds_sites : ∀ (decl : FunDecl NodeId) (path : Path) (around : Surroundings),
    siteIds (decl.sites path) = placedIds (decl.expressions around)
  | .mk _ params body, path, around => by
      rw [FunDecl.sites, siteIds_append, siteIds_declares, List.nil_append]
      exact Stmt.siteIds_sitesAll body _ _

theorem FunDecl.siteIds_sitesEach : ∀ (decls : List (FunDecl NodeId)) (path : Path)
    (around : Surroundings),
    siteIds (FunDecl.sitesEach path decls) = placedIds (FunDecl.expressionsEach around decls)
  | [], _, _ => rfl
  | decl :: decls, path, around => by
      rw [FunDecl.sitesEach, siteIds_append, FunDecl.siteIds_sites decl path around,
        FunDecl.siteIds_sitesEach decls path around, FunDecl.expressionsEach, placedIds_append]

end

/-- The uses of names among the sites of a numbered program have different numbers. -/
theorem sitesOf_within (body : List PlainStmt) (next : NodeId) :
    Within next (Stmt.numberAll next body).2 (siteIds (sitesOf (Stmt.numberAll next body).1)) := by
  rw [sitesOf, Stmt.siteIds_sitesAll _ [] []]
  exact Stmt.numberAll_gathers gathers_references body next []

theorem mem_entries {sites : List Site} {p : NodeId × Nat} :
    p ∈ entries sites ↔ ∃ site ∈ sites, site.entry? = some p := by
  simp [entries]

/-- What different members of a list are taken to is different, so it stands for one of them. -/
theorem eq_of_filterMap_nodup {α β : Type} {f : α → Option β} {xs : List α} (hn : (xs.filterMap f).Nodup)
    {x y : α} (hx : x ∈ xs) (hy : y ∈ xs) {i : β} (hfx : f x = some i) (hfy : f y = some i) : x = y := by
  induction xs with
  | nil => exact nomatch hx
  | cons z zs ih =>
      have hmem : ∀ {w : α}, w ∈ zs → f w = some i → i ∈ zs.filterMap f :=
        fun hw hfw => List.mem_filterMap.mpr ⟨_, hw, hfw⟩
      rw [List.filterMap_cons] at hn
      rcases List.mem_cons.mp hx with rfl | hx' <;> rcases List.mem_cons.mp hy with rfl | hy'
      · rfl
      · rw [hfx] at hn
        exact absurd (hmem hy' hfy) (List.nodup_cons.mp hn).1
      · rw [hfy] at hn
        exact absurd (hmem hx' hfx) (List.nodup_cons.mp hn).1
      · refine ih ?_ hx' hy'
        cases hz : f z with
        | none => rwa [hz] at hn
        | some j =>
            rw [hz] at hn
            exact (List.nodup_cons.mp hn).2

/-- Where uses of names have different numbers, the entry at the number of a use is its distance. -/
theorem mem_entries_iff {sites : List Site} (hn : (siteIds sites).Nodup) {site : Site} (hs : site ∈ sites)
    {ref : Reference NodeId} (hr : site.reference? = some ref) (d : Nat) :
    (ref.id, d) ∈ entries sites ↔ site.path.Locates ref.name.text d := by
  rw [mem_entries, ← Path.distance?_eq_some_iff]
  constructor
  · rintro ⟨site', hs', he⟩
    obtain ⟨ref', hr', hd⟩ := Option.bind_eq_some_iff.mp he
    obtain ⟨d', hd', hp⟩ := Option.map_eq_some_iff.mp hd
    obtain ⟨hid, rfl⟩ := Prod.mk.inj hp
    obtain rfl : site' = site := eq_of_filterMap_nodup hn hs' hs (i := ref.id)
      (by rw [hr', Option.map_some, hid]) (by rw [hr, Option.map_some])
    rw [hr] at hr'
    cases hr'
    exact hd'
  · intro hd
    refine ⟨site, hs, ?_⟩
    rw [Site.entry?, hr, Option.bind_some, hd, Option.map_some]

/-- Different uses have different keys among the entries. -/
theorem entries_pairwise {sites : List Site} (hn : (siteIds sites).Nodup) :
    (entries sites).Pairwise fun p q => (p.1 == q.1) = false := by
  have hkey {site : Site} {p : NodeId × Nat} (hp : site.entry? = some p) :
      site.reference?.map Reference.id = some p.1 := by
    obtain ⟨ref, hr, hd⟩ := Option.bind_eq_some_iff.mp hp
    obtain ⟨d, -, rfl⟩ := Option.map_eq_some_iff.mp hd
    rw [hr, Option.map_some]
  unfold entries
  rw [List.pairwise_reverse, List.pairwise_filterMap]
  refine (List.pairwise_filterMap.mp hn).imp fun hne p hp q hq => beq_false_of_ne fun he => ?_
  exact hne _ (hkey hp) _ (hkey hq) he.symm

section tables

variable {T : Std.HashMap NodeId Nat} {sites : List Site}

/-- A table does not change at numbers that no use has. -/
theorem getElem?_entries_of_notMem {i : NodeId} (hi : i ∉ siteIds sites) :
    (T.insertMany (entries sites))[i]? = T[i]? := by
  refine Std.HashMap.getElem?_insertMany_list_of_contains_eq_false ?_
  rw [List.contains_eq_mem, decide_eq_false_iff_not]
  intro hm
  obtain ⟨p, hp, rfl⟩ := List.mem_map.mp hm
  obtain ⟨site, hs, he⟩ := mem_entries.mp hp
  obtain ⟨ref, hr, he⟩ := Option.bind_eq_some_iff.mp he
  obtain ⟨d, -, rfl⟩ := Option.map_eq_some_iff.mp he
  exact hi (List.mem_filterMap.mpr ⟨site, hs, by rw [hr, Option.map_some]⟩)

/-- A table that had no entry for a use has its distance afterwards. -/
theorem getElem?_entries (hn : (siteIds sites).Nodup) {site : Site} (hs : site ∈ sites)
    {ref : Reference NodeId} (hr : site.reference? = some ref) (ht : T[ref.id]? = none) :
    (T.insertMany (entries sites))[ref.id]? = site.path.distance? ref.name.text := by
  have hentry := mem_entries_iff hn hs hr
  cases hd : site.path.distance? ref.name.text with
  | some d =>
      exact Std.HashMap.getElem?_insertMany_list_of_mem (k := ref.id) (by simp) (entries_pairwise hn)
        ((hentry d).mpr (Path.distance?_eq_some_iff.mp hd))
  | none =>
      rw [← ht]
      refine Std.HashMap.getElem?_insertMany_list_of_contains_eq_false ?_
      rw [List.contains_eq_mem, decide_eq_false_iff_not]
      intro hm
      obtain ⟨⟨i, d⟩, hp, rfl⟩ := List.mem_map.mp hm
      exact nomatch hd.symm.trans (Path.distance?_eq_some_iff.mpr ((hentry d).mp hp))

end tables

end numbers

end Lox
