import Lox.Proofs.Identities
import Lox.Proofs.Lookups
import Lox.Proofs.Relabelling

/-! # Accepted programs match themselves

An accepted program, run in two ways that agree about the distances of its uses of names, matches itself
(`Accepted.matches`): a use at a distance stands for the name that the scope at this distance has declared
before the use.  Looked up by search, it stands for the same, when no scope around a use declares the name
only later (`Use.DeclaredFirst`). -/

namespace Lox

/-! ### Sound places -/

/-- The names of a scope are no reserved words, and those declared so far are among them. -/
def Enclosure.Sound : Enclosure → Prop
  | names all before => (∀ t ∈ all, t.IsName) ∧ ∀ t ∈ before, t ∈ all
  | _ => True

/-- The scopes around a place are sound. -/
def Surroundings.Sound (around : Surroundings) : Prop := ∀ e ∈ around, e.Sound

/-- The place of an expression is sound: a local variable that is being initialized is declared in the
innermost scope. -/
structure Placed.Sound (x : Placed) : Prop where
  around : x.around.Sound
  spelled : x.expr.Spelled
  own : ∀ t, x.initializing = some t →
    ∃ all before outer, x.around = .names all before :: outer ∧ t ∈ all

/-- The names have room in the scope around. -/
abbrev Surroundings.HasRoom (around : Surroundings) (ts : List Lexeme) : Prop :=
  around.Room (fun _ => id) id ts

namespace Surroundings

variable {around : Surroundings}

theorem Sound.cons (h : around.Sound) {e : Enclosure} (he : e.Sound) : Sound (e :: around) := by
  intro e' he'
  rcases List.mem_cons.mp he' with rfl | he'
  · exact he
  · exact h e' he'

theorem Sound.this (h : around.Sound) : Sound (.this :: around) := h.cons trivial

theorem Sound.super (h : around.Sound) : Sound (.super :: around) := h.cons trivial

theorem Sound.declare? (h : around.Sound) {t : Option Lexeme} (hr : around.HasRoom t.toList) :
    (around.declare? t).Sound := by
  cases t with
  | none => exact h
  | some t =>
      match around, hr with
      | [], _ => exact h
      | .names all before :: outer, hr =>
          have hn := h _ List.mem_cons_self
          have ho : Sound outer := fun e he => h e (List.mem_cons_of_mem _ he)
          refine ho.cons ⟨hn.1, fun t' ht' => ?_⟩
          rcases List.mem_cons.mp ht' with rfl | ht'
          · exact (hr t' List.mem_cons_self).1
          · exact hn.2 t' ht'

theorem hasRoom_names {all before ts : List Lexeme} {outer : Surroundings} (h : ∀ t ∈ ts, t ∈ all) :
    HasRoom (.names all before :: outer) ts := fun t ht => ⟨h t ht, rfl⟩

theorem HasRoom.own {ts : List Lexeme} (h : around.HasRoom ts) {name t : Lexeme} (hn : name ∈ ts)
    (ht : around.initializing name = some t) :
    ∃ all before outer, around = .names all before :: outer ∧ t ∈ all := by
  match around, h with
  | .names all before :: outer, h =>
      cases ht
      exact ⟨all, before, outer, rfl, (h name hn).1⟩

end Surroundings

mutual

/-- The expressions of a formed statement stand at sound places. -/
theorem Stmt.expressions_sound : ∀ (s : Stmt NodeId) {around : Surroundings}, s.Formed → around.Sound →
    around.HasRoom s.declared?.toList → ∀ x ∈ s.expressions around, x.Sound
  | .expression value, _, hf, ha, _, x, hx => by
      rw [List.mem_singleton.mp hx]
      exact ⟨ha, hf, nofun⟩
  | .print value, _, hf, ha, _, x, hx => by
      rw [List.mem_singleton.mp hx]
      exact ⟨ha, hf, nofun⟩
  | .var name initializer, _, hf, ha, hr, x, hx => by
      obtain ⟨e, he, rfl⟩ := List.mem_map.mp hx
      exact ⟨ha, hf.2 e (Option.mem_toList.mp he), fun t ht => hr.own List.mem_cons_self ht⟩
  | .block body, _, hf, ha, _, x, hx =>
      have hs : Enclosure.Sound (.names (Stmt.declarations body) []) := ⟨Stmt.FormedAll.isName hf, nofun⟩
      Stmt.expressionsAll_sound body hf (ha.cons hs) (Surroundings.hasRoom_names fun _ ht => ht) x hx
  | .ite condition yes none, _, ⟨hc, hy, hn⟩, ha, hr, x, hx => by
      rcases List.mem_cons.mp hx with rfl | hx
      · exact ⟨ha, hc, nofun⟩
      · exact Stmt.expressions_sound yes hy ha (hr.sub (by simp [hn])) x hx
  | .ite condition yes (some no), _, ⟨hc, ⟨hy, hyn⟩, hn, hnn⟩, ha, hr, x, hx => by
      rcases List.mem_cons.mp hx with rfl | hx
      · exact ⟨ha, hc, nofun⟩
      rcases List.mem_append.mp hx with hx | hx
      · exact Stmt.expressions_sound yes hy ha (hr.sub (by simp [hyn])) x hx
      · exact Stmt.expressions_sound no hn ha (hr.sub (by simp [hnn])) x hx
  | .while condition body, _, ⟨hc, hb, hn⟩, ha, hr, x, hx => by
      rcases List.mem_cons.mp hx with rfl | hx
      · exact ⟨ha, hc, nofun⟩
      · exact Stmt.expressions_sound body hb ha (hr.sub (by simp [hn])) x hx
  | .function decl, around, hf, ha, hr, x, hx =>
      FunDecl.expressions_sound decl hf.2 (Surroundings.Sound.declare? (t := some decl.name) ha hr) x hx
  | .ret keyword value, _, hf, ha, _, x, hx => by
      obtain ⟨e, he, rfl⟩ := List.mem_map.mp hx
      exact ⟨ha, hf e (Option.mem_toList.mp he), nofun⟩
  | .cls name none methods, _, hf, ha, hr, x, hx =>
      have hd := Surroundings.Sound.declare? (t := some name) ha hr
      FunDecl.expressionsEach_sound methods hf.2.2 hd.this x hx
  | .cls name (some superclass) methods, _, hf, ha, hr, x, hx => by
      have hd := Surroundings.Sound.declare? (t := some name) ha hr
      rcases List.mem_cons.mp hx with rfl | hx
      · refine ⟨ha, fun u hu => ?_, nofun⟩
        rw [List.mem_singleton.mp hu]
        exact hf.2.1 superclass rfl
      · exact FunDecl.expressionsEach_sound methods hf.2.2 hd.super.this x hx

theorem Stmt.expressionsAll_sound : ∀ (body : List (Stmt NodeId)) {around : Surroundings},
    Stmt.FormedAll body → around.Sound → around.HasRoom (Stmt.declarations body) →
    ∀ x ∈ Stmt.expressionsAll around body, x.Sound
  | [], _, _, _, _, _, hx => nomatch hx
  | s :: body, _, hf, ha, hr, x, hx => by
      rw [Stmt.declarations_cons] at hr
      have hs := hr.sub fun t ht => List.mem_append_left _ ht
      have hrest := hr.sub fun t ht => List.mem_append_right _ ht
      rcases List.mem_append.mp hx with hx | hx
      · exact Stmt.expressions_sound s hf.1 ha hs x hx
      · exact Stmt.expressionsAll_sound body hf.2 (ha.declare? hs) (hrest.declare? _) x hx

theorem FunDecl.expressions_sound : ∀ (decl : FunDecl NodeId) {around : Surroundings}, decl.Formed →
    around.Sound → ∀ x ∈ decl.expressions around, x.Sound
  | .mk _ params body, _, hf, ha, x, hx =>
      have hs : Enclosure.Sound (.names (params ++ Stmt.declarations body) params) :=
        ⟨fun t ht => (List.mem_append.mp ht).elim (hf.1 t) (Stmt.FormedAll.isName hf.2 t),
          fun _ ht => List.mem_append_left _ ht⟩
      Stmt.expressionsAll_sound body hf.2 (ha.cons hs)
        (Surroundings.hasRoom_names fun _ ht => List.mem_append_right _ ht) x hx

theorem FunDecl.expressionsEach_sound : ∀ (decls : List (FunDecl NodeId)) {around : Surroundings},
    FunDecl.FormedEach decls → around.Sound → ∀ x ∈ FunDecl.expressionsEach around decls, x.Sound
  | [], _, _, _, _, hx => nomatch hx
  | decl :: decls, _, hf, ha, x, hx => by
      rcases List.mem_append.mp hx with hx | hx
      · exact FunDecl.expressions_sound decl hf.1 ha x hx
      · exact FunDecl.expressionsEach_sound decls hf.2 ha x hx

end

/-- The place of a use of a name is sound. -/
structure Use.Sound (u : Use) : Prop where
  around : u.around.Sound
  spelled : u.kind.Spells u.ref.name
  own : ∀ t, u.initializing = some t →
    ∃ all before outer, u.around = .names all before :: outer ∧ t ∈ all

theorem Placed.Sound.uses {x : Placed} (h : x.Sound) : ∀ u ∈ x.uses, u.Sound := by
  intro u hu
  obtain ⟨⟨kind, ref⟩, hr, rfl⟩ := List.mem_map.mp hu
  exact ⟨h.around, h.spelled _ hr, h.own⟩

theorem Use.exists_of_isOwn {u : Use} (h : u.isOwn = true) :
    ∃ t, u.initializing = some t ∧ t.text = u.ref.name.text := by
  unfold Use.isOwn at h
  cases hi : u.initializing with
  | none =>
      rw [hi] at h
      exact nomatch h
  | some t =>
      rw [hi] at h
      exact ⟨t, rfl, by simpa using h⟩

/-- A reserved word is no variable that is being initialized. -/
theorem Use.Sound.isOwn_eq_false {u : Use} (h : u.Sound)
    (hn : u.ref.name.text = "this" ∨ u.ref.name.text = "super") : u.isOwn = false := by
  cases hi : u.isOwn with
  | false => rfl
  | true =>
      obtain ⟨t, ht, htn⟩ := Use.exists_of_isOwn hi
      obtain ⟨all, before, outer, ha, hm⟩ := h.own t ht
      have hname := (h.around (.names all before) (ha ▸ List.mem_cons_self)).1 t hm
      rcases hn with hn | hn
      · exact absurd (htn.trans hn) hname.ne_this
      · exact absurd (htn.trans hn) hname.ne_super

/-! ### Reading distances off places -/

/-- The names of a scope stay as they are. -/
abbrev Surroundings.sameLevels (around : Surroundings) : Levels := around.levels fun _ => id

/-- What a name that is declared at a distance is in the second program. -/
def Surroundings.twin (τ : List Lexeme → String → String) (around : Surroundings) (d : Option Nat)
    (n : String) : String :=
  match d.bind (around[·]?) with
  | some e => (e.level τ).role.twin n
  | none => n

namespace Surroundings

variable {τ : List Lexeme → String → String} {around : Surroundings}

theorem getElem?_levels {d : Nat} {e : Enclosure} (h : around[d]? = some e) :
    (around.levels τ)[d]? = some (e.level τ) := by
  rw [levels, List.getElem?_map, h, Option.map_some]

theorem twin_of_getElem? {d : Nat} {e : Enclosure} (h : around[d]? = some e) (n : String) :
    around.twin τ (some d) n = (e.level τ).role.twin n := by
  rw [twin, Option.bind_some, h]

@[simp] theorem twin_same (d : Option Nat) (n : String) : around.twin (fun _ => id) d n = n := by
  unfold twin
  cases d.bind (around[·]?) with
  | none => rfl
  | some e => cases e <;> rfl

theorem distance?_some {d : Nat} {n : String} (h : around.distance? n = some d) :
    ∃ e, around[d]? = some e ∧ e.binds n = true ∧
      ∀ j e', j < d → around[j]? = some e' → e'.binds n = false := by
  obtain ⟨hd, hb, hlt⟩ := List.findIdx?_eq_some_iff_getElem.mp h
  refine ⟨around[d], List.getElem?_eq_getElem hd, hb, fun j e' hj he => ?_⟩
  obtain ⟨hjl, rfl⟩ := List.getElem?_eq_some_iff.mp he
  simpa using hlt j hj

theorem distance?_none {n : String} (h : around.distance? n = none) :
    ∀ (j : Nat) (e : Enclosure), around[j]? = some e → e.binds n = false := by
  intro j e he
  have hf := List.findIdx?_eq_none_iff.mp h e (List.mem_of_getElem? he)
  simpa using hf

end Surroundings

/-- A name that is declared before a place is ready at its level. -/
theorem Enclosure.ready {τ : List Lexeme → String → String} {e : Enclosure} {n : String}
    (h : e.binds n = true) : n ∈ (e.level τ).ready := by
  cases e with
  | names all before =>
      obtain ⟨t, ht, hn⟩ := List.any_eq_true.mp h
      exact List.mem_map.mpr ⟨t, ht, by simpa using hn⟩
  | this => simpa [Enclosure.binds, Enclosure.level, Level.this] using h
  | super => simpa [Enclosure.binds, Enclosure.level, Level.super] using h

/-- What a level may bind, its scope declares. -/
theorem Enclosure.declares_of_mayBind {e : Enclosure} {n : String}
    (h : (e.level fun _ => id).MayBind n) : e.declares n = true := by
  obtain ⟨m, hm, rfl⟩ := h
  cases e with
  | names all before =>
      obtain ⟨t, ht, rfl⟩ := List.mem_map.mp hm
      exact List.any_eq_true.mpr ⟨t, ht, by simp [Enclosure.level, Role.twin]⟩
  | this => exact beq_iff_eq.mpr hm
  | super => exact beq_iff_eq.mpr hm

theorem Surroundings.ready {τ : List Lexeme → String → String} {around : Surroundings} (n : String) :
    (around.levels τ).Ready (around.distance? n) n (around.twin τ (around.distance? n) n) := by
  cases hd : around.distance? n with
  | none => rfl
  | some d =>
      obtain ⟨e, he, hb, -⟩ := Surroundings.distance?_some hd
      exact ⟨_, Surroundings.getElem?_levels he, Enclosure.ready hb, Surroundings.twin_of_getElem? he n⟩

/-- Every scope around a place that declares a name has declared it before the place. -/
def Surroundings.Settled (around : Surroundings) (n : String) : Prop :=
  ∀ e ∈ around, e.declares n = true → e.binds n = true

/-- A search for a settled name comes to the distance that can be read off the place. -/
theorem Surroundings.Settled.clear {around : Surroundings} {n : String} (h : around.Settled n) :
    around.sameLevels.Clear (around.distance? n) n := by
  intro j l hl hj hb
  rw [Surroundings.sameLevels, Surroundings.levels, List.getElem?_map] at hl
  obtain ⟨e, he, rfl⟩ := Option.map_eq_some_iff.mp hl
  have hbe := h e (List.mem_of_getElem? he) (Enclosure.declares_of_mayBind hb)
  cases hd : around.distance? n with
  | none => cases hbe.symm.trans (Surroundings.distance?_none hd j e he)
  | some d =>
      obtain ⟨-, -, -, hlt⟩ := Surroundings.distance?_some hd
      cases hbe.symm.trans (hlt j e (hj d hd) he)

/-- No scope around a sound place declares a reserved word later. -/
theorem Surroundings.Sound.settled {around : Surroundings} (h : around.Sound) {n : String}
    (hn : n = "this" ∨ n = "super") : around.Settled n := by
  intro e he hd
  cases e with
  | names all before =>
      obtain ⟨t, ht, hnt⟩ := List.any_eq_true.mp hd
      have hname := (h _ he).1 t ht
      have hnt : t.text = n := by simpa using hnt
      rcases hn with rfl | rfl
      · exact absurd hnt hname.ne_this
      · exact absurd hnt hname.ne_super
  | this => exact hd
  | super => exact hd

/-- Code of a class with a superclass stands in a method: `this` is bound just inside `super`. -/
theorem Surroundings.Sound.inMethod {τ : List Lexeme → String → String} {around : Surroundings}
    (h : around.Sound) (hc : around.inClass = .derived) :
    ∃ d, (around.levels τ).InMethod d ∧ around.distance? "this" = some d ∧
      around.distance? "super" = some (d + 1) := by
  induction around with
  | nil => exact nomatch hc
  | cons e around ih =>
      match e, around, h, hc with
      | .names all before, around, h, hc =>
          obtain ⟨d, ⟨ht, hs⟩, hdt, hds⟩ := ih (fun e he => h e (List.mem_cons_of_mem _ he)) hc
          have hb (n : String) (hn : n = "this" ∨ n = "super") :
              (Enclosure.names all before).binds n = false := by
            cases hb : (Enclosure.names all before).binds n with
            | false => rfl
            | true =>
                obtain ⟨t, ht, hnt⟩ := List.any_eq_true.mp hb
                have hname := (h _ List.mem_cons_self).1 t ((h _ List.mem_cons_self).2 t ht)
                have hnt : t.text = n := by simpa using hnt
                rcases hn with rfl | rfl
                · exact absurd hnt hname.ne_this
                · exact absurd hnt hname.ne_super
          refine ⟨d + 1, ⟨ht, hs⟩, ?_, ?_⟩
          · unfold distance? at hdt ⊢
            rw [List.findIdx?_cons, hb _ (.inl rfl), hdt]
            rfl
          · unfold distance? at hds ⊢
            rw [List.findIdx?_cons, hb _ (.inr rfl), hds]
            rfl
      | .this, .super :: outer, _, _ => exact ⟨0, ⟨rfl, rfl⟩, rfl, rfl⟩

/-! ### Accepted programs -/

/-- No scope around the use declares its name only after it, and it does not stand in the initializer of
the variable it names. -/
def Use.DeclaredFirst (u : Use) : Prop := u.isOwn = false ∧ u.around.Settled u.ref.name.text

instance (around : Surroundings) (n : String) : Decidable (around.Settled n) :=
  inferInstanceAs (Decidable (∀ e ∈ around, e.declares n = true → e.binds n = true))

instance (u : Use) : Decidable u.DeclaredFirst :=
  inferInstanceAs (Decidable (u.isOwn = false ∧ u.around.Settled u.ref.name.text))

/-- What two runs have to agree about for a use of a name, when the lexemes of the first program are changed
by `g`, and those of the second by `g'`; a search is possible where no name changes. -/
structure Recorded (C : Comparison) (τ : List Lexeme → String → String) (g g' : Lexeme → Lexeme)
    (u : Use) : Prop where
  left : C.left[u.ref.id]? = u.distance?
  right : match C.look with
    | .byDistance => C.right[u.ref.id]? = u.distance?
    | .bySearch => u.DeclaredFirst
  same : C.look = .bySearch → τ = fun _ => id
  name : (g' u.ref.name).text = u.around.twin τ u.distance? u.ref.name.text
  site : C.site u.ref.id (g u.ref.name).line u.ref.id (g' u.ref.name).line
  early : u.kind = .write → u.isOwn = true → C.look = .byDistance →
    C.early (u.ref.map id g) (u.ref.map id g')

namespace Recorded

variable {C : Comparison} {τ : List Lexeme → String → String} {g g' : Lexeme → Lexeme} {u : Use}

theorem finds (h : Recorded C τ g g' u) (hi : u.isOwn = false) :
    C.Finds (u.around.levels τ) C.left[u.ref.id]? u.ref.id (g' u.ref.name).text := by
  have hr := h.right
  unfold Comparison.Finds
  rw [h.left]
  cases hl : C.look with
  | byDistance =>
      rw [hl] at hr
      exact hr
  | bySearch =>
      rw [hl] at hr
      have hc := hr.2.clear
      have hn := h.name
      rw [h.same hl, Surroundings.twin_same] at hn
      rwa [Use.distance?, hi, h.same hl, hn]

theorem read (h : Recorded C τ g g' u) (hg : ∀ t, (g t).text = t.text) (hi : u.isOwn = false)
    (p : Option String) :
    C.links.read (u.around.levels τ) p (u.ref.map id g) (u.ref.map id g') := by
  refine ⟨h.site, h.finds hi, ?_⟩
  have hn := h.name
  change (u.around.levels τ).Ready C.left[u.ref.id]? (g u.ref.name).text (g' u.ref.name).text
  rw [hn, h.left, hg, Use.distance?, hi]
  exact u.around.ready _

/-- A variable that is assigned to in its own initializer is the innermost one of its name, and may not be
bound yet. -/
theorem own (h : Recorded C τ g g' u) (hs : u.Sound) (hg : ∀ t, (g t).text = t.text)
    (hk : u.kind = .write) (hi : u.isOwn = true) :
    C.early (u.ref.map id g) (u.ref.map id g') ∧ C.look = .byDistance ∧
      C.left[u.ref.id]? = some 0 ∧ C.right[u.ref.id]? = some 0 ∧
        ∃ declared twin ready Γ', u.around.levels τ = ⟨.names declared twin, ready⟩ :: Γ' ∧
          (g u.ref.name).text ∈ declared ∧ (g' u.ref.name).text = twin (g u.ref.name).text := by
  have hd : u.distance? = some 0 := by rw [Use.distance?, hi, if_pos rfl]
  have hr := h.right
  obtain ⟨t, ht, hn⟩ := Use.exists_of_isOwn hi
  obtain ⟨all, before, outer, ha, hm⟩ := hs.own t ht
  cases hl : C.look with
  | bySearch =>
      rw [hl] at hr
      cases hi.symm.trans hr.1
  | byDistance =>
      rw [hl] at hr
      have hname := h.name
      have hget : u.around[0]? = some (.names all before) := by rw [ha]; rfl
      rw [hd, Surroundings.twin_of_getElem? hget] at hname
      refine ⟨h.early hk hi hl, rfl, h.left.trans hd, hr.trans hd, ?_⟩
      rw [ha, hg]
      exact ⟨_, _, _, _, rfl, hn ▸ List.mem_map_of_mem hm, hname⟩

theorem assignable (hs : u.Sound) (hk : u.kind = .write) :
    (u.around.levels τ).Assignable (u.around.distance? u.ref.name.text) := by
  have hname : u.ref.name.IsName := by
    have h := hs.spelled
    rw [hk] at h
    exact h
  intro k l hd hl
  obtain ⟨e, he, hb, -⟩ := Surroundings.distance?_some hd
  obtain rfl := Option.some.inj ((Surroundings.getElem?_levels he).symm.trans hl)
  cases e with
  | names all before => exact ⟨_, _, rfl⟩
  | this => exact absurd (beq_iff_eq.mp hb) hname.ne_this
  | super => exact absurd (beq_iff_eq.mp hb) hname.ne_super

theorem write (h : Recorded C τ g g' u) (hs : u.Sound) (hg : ∀ t, (g t).text = t.text)
    (hk : u.kind = .write) (p : Option String) :
    C.links.write (u.around.levels τ) p (u.ref.map id g) (u.ref.map id g') := by
  cases hi : u.isOwn with
  | true => exact ⟨h.site, .inr (h.own hs hg hk hi)⟩
  | false =>
      obtain ⟨hsite, hfinds, hready⟩ := h.read hg hi p
      refine ⟨hsite, .inl ⟨hfinds, hready, ?_⟩⟩
      have ha := @assignable τ u hs hk
      have hl := h.left
      rw [Use.distance?, hi] at hl
      exact hl ▸ ha

theorem super (h : Recorded C τ g g' u) (hs : u.Sound) (hk : u.kind = .super)
    (hc : u.around.inClass = .derived) :
    C.links.super (u.around.levels τ) (u.ref.map id g) (u.ref.map id g') := by
  have hname : u.ref.name.text = "super" := by
    have h := hs.spelled
    rw [hk] at h
    exact h
  have hi := hs.isOwn_eq_false (.inr hname)
  obtain ⟨d, hm, hdt, hds⟩ := @Surroundings.Sound.inMethod τ _ hs.around hc
  have hd : u.distance? = some (d + 1) := by
    rw [Use.distance?, hi, hname]
    exact hds
  refine ⟨d, hm, h.left.trans hd, ?_⟩
  have hr := h.right
  cases hl : C.look with
  | byDistance =>
      rw [hl] at hr
      exact hr.trans hd
  | bySearch =>
      have hcs := (hs.around.settled (.inr rfl)).clear
      have hct := (hs.around.settled (.inl rfl)).clear
      have hn := h.name
      rw [h.same hl, Surroundings.twin_same] at hn
      rw [hds] at hcs
      rw [hdt] at hct
      rw [h.same hl]
      exact ⟨hn.trans hname, hcs, hct⟩

/-- The links of two runs allow a use of a name about which they agree. -/
theorem useMatch (h : Recorded C τ g g' u) (hs : u.Sound) (ha : u.Allowed)
    (hg : ∀ t, (g t).text = t.text) : UseMatch C.links τ g g' u := by
  unfold UseMatch
  unfold Use.Allowed at ha
  cases hk : u.kind with
  | read =>
      rw [hk] at ha
      exact h.read hg ha _
  | write => exact h.write hs hg hk _
  | this =>
      have ht := hs.spelled
      rw [hk] at ht
      exact h.read hg (hs.isOwn_eq_false (.inl ht)) _
  | super =>
      rw [hk] at ha
      exact h.super hs hk ha

end Recorded

/-- What two runs have to agree about for an accepted program whose lexemes are changed in two ways. -/
structure Agreed (C : Comparison) (τ : List Lexeme → String → String) (g g' : Lexeme → Lexeme)
    (body : List (Stmt NodeId)) : Prop where
  uses : ∀ u ∈ usesOf body, Recorded C τ g g' u
  marks : ∀ x ∈ Stmt.expressionsAll [] body, ∀ m ∈ x.expr.marks, MarkMatch C.links g g' m
  scopes : ∀ names ∈ Stmt.scopesAll body, Twins C.links τ g' names
  titles : ∀ t ∈ Stmt.titlesAll body, (g' t).text = t.text
  globals : ∀ t ∈ Stmt.declarations body, (g' t).text = t.text
  decl : ∀ d : FunDecl NodeId, C.decl (d.map id g) (d.map id g')

/-- Two changes of an accepted program match when two runs agree about it. -/
theorem Accepted.matches {body : List (Stmt NodeId)} {ds : Distances} (h : Accepted body ds)
    {C : Comparison} {τ : List Lexeme → String → String} {g g' : Lexeme → Lexeme}
    (hg : ∀ t, (g t).text = t.text) (ha : Agreed C τ g g' body) :
    MatchStmts C.links false [] (Stmt.mapAll id g body) (Stmt.mapAll id g' body)
      (Surroundings.levels τ (Stmt.afterAll [] body)) := by
  have hs : ∀ x ∈ Stmt.expressionsAll [] body, x.Sound :=
    Stmt.expressionsAll_sound body h.formed nofun fun _ _ => rfl
  refine @Stmt.mapAll_matches C.links τ g g' hg ha.decl body false [] h.formed (.inr h.returns)
    ha.globals ⟨fun x hx => ⟨fun u hxu => ?_, ha.marks x hx⟩, ha.scopes, ha.titles⟩
  have hub : u ∈ usesOf body := List.mem_flatMap.mpr ⟨x, hx, hxu⟩
  exact (ha.uses u hub).useMatch ((hs x hx).uses u hxu) (h.allowed u hub) hg

/-- Where no text changes, two runs agree when they do about uses and sites. -/
theorem Agreed.of_text {C : Comparison} {g g' : Lexeme → Lexeme} {body : List (Stmt NodeId)}
    (hg : ∀ t, (g t).text = t.text) (hg' : ∀ t, (g' t).text = t.text)
    (hu : ∀ u ∈ usesOf body, Recorded C (fun _ => id) g g' u)
    (hm : ∀ x ∈ Stmt.expressionsAll [] body, ∀ m ∈ x.expr.marks,
      C.site m.id (g m.name).line m.id (g' m.name).line)
    (hd : ∀ d : FunDecl NodeId, C.decl (d.map id g) (d.map id g')) (hr : C.renames id) :
    Agreed C (fun _ => id) g g' body where
  uses := hu
  marks x hx m hxm := ⟨(hg' _).trans (hg _).symm, hm x hx m hxm⟩
  scopes _ _ := ⟨fun t _ => hg' t, hr, fun _ _ _ _ h => h⟩
  titles t _ := hg' t
  globals t _ := hg' t
  decl := hd

end Lox
