import Lox.Proofs.ReadBack

/-! # Printed trees

The prefix form of an expression is an outline: words, and lists in parentheses with a word at the head of each.  No
word has a blank or a parenthesis in it, unless there are strings, so a text is printed for one outline only
(`Outline.text_injective`).  An outline is read back as a tree, where every word is read as the language reads it:
a word alone is an expression, and the head of a list is a token or one of three names (`Expr.outline_shows`).  Hence
what is printed for an expression tells everything about it but the lines of its tokens (`render_eq_iff`). -/

namespace Lox

/-! ### Outlines -/

/-- A text of words and of lists in parentheses, with a word at the head of every list. -/
inductive Outline where
  | word (text : String)
  | list (head : String) (items : List Outline)

namespace Outline

mutual

/-- An outline as it is printed. -/
def text : Outline → List Char
  | .word w => w.toList
  | .list head items => '(' :: (head.toList ++ (textEach items ++ [')']))

/-- Outlines as they are printed, each after a blank. -/
def textEach : List Outline → List Char
  | [] => []
  | o :: rest => ' ' :: (o.text ++ textEach rest)

end

/-- The characters that may come right behind a word. -/
def endsWord (c : Char) : Bool := c = ' ' || c = ')'

/-- A word has neither blanks nor parentheses in it. -/
def IsWord (w : String) : Prop := ∀ c ∈ w.toList, c ≠ '(' ∧ endsWord c = false

/-- A text is at its end or goes on with a character that ends a word. -/
def GoesOut (after : List Char) : Prop := opensWith (fun c => !endsWord c) after = false

mutual

/-- All words of an outline are words. -/
def Legible : Outline → Prop
  | .word w => IsWord w
  | .list head items => IsWord head ∧ LegibleEach items

/-- All words of the outlines are words. -/
def LegibleEach : List Outline → Prop
  | [] => True
  | o :: rest => o.Legible ∧ LegibleEach rest

end

/-! ### One outline for a text -/

section unique

variable {r r' : List Char}

/-- Where a word ends, it is told from what comes behind it. -/
theorem IsWord.append_inj {w w' : String} (hw : IsWord w) (hw' : IsWord w') (hr : GoesOut r) (hr' : GoesOut r')
    (h : w.toList ++ r = w'.toList ++ r') : w = w' ∧ r = r' := by
  have hall {w : String} (hw : IsWord w) : ∀ c ∈ w.toList, (!endsWord c) = true := fun c hc => by
    rw [(hw c hc).2, Bool.not_false]
  have hsplit := splitWhile_of_stop (hall hw) hr
  rw [h, splitWhile_of_stop (hall hw') hr'] at hsplit
  obtain ⟨htext, hrest⟩ := Prod.mk.inj hsplit
  exact ⟨String.toList_inj.mp htext.symm, hrest.symm⟩

/-- No word is printed as a list is. -/
theorem IsWord.ne_list {w : String} (hw : IsWord w) (hr : GoesOut r) (more : List Char) :
    w.toList ++ r ≠ '(' :: more := by
  intro h
  cases hchars : w.toList with
  | nil =>
    rw [hchars, List.nil_append] at h
    rw [h] at hr
    exact Bool.noConfusion hr
  | cons c rest =>
    rw [hchars, List.cons_append] at h
    have hc := (hw c (by rw [hchars]; exact List.mem_cons_self)).1
    exact hc (List.cons.inj h).1

theorem goesOut_textEach (items : List Outline) (more : List Char) : GoesOut (textEach items ++ ')' :: more) := by
  cases items <;> rfl

mutual

/-- An outline is told from what comes behind it. -/
theorem text_append_inj : ∀ {o o' : Outline} {r r' : List Char}, o.Legible → o'.Legible → GoesOut r → GoesOut r' →
    o.text ++ r = o'.text ++ r' → o = o' ∧ r = r'
  | .word w, .word w', r, r', ho, ho', hr, hr', h => by
    obtain ⟨rfl, hrest⟩ := IsWord.append_inj ho ho' hr hr' h
    exact ⟨rfl, hrest⟩
  | .word w, .list head items, r, r', ho, _, hr, _, h => absurd h (IsWord.ne_list ho hr _)
  | .list head items, .word w, r, r', _, ho', _, hr', h => absurd h.symm (IsWord.ne_list ho' hr' _)
  | .list head items, .list head' items', r, r', ⟨hhead, hitems⟩, ⟨hhead', hitems'⟩, _, _, h => by
    simp only [text, List.cons_append, List.append_assoc, List.nil_append, List.cons.injEq, true_and] at h
    obtain ⟨rfl, htail⟩ := IsWord.append_inj hhead hhead' (goesOut_textEach _ _) (goesOut_textEach _ _) h
    obtain ⟨rfl, hrest⟩ := textEach_append_inj hitems hitems' htail
    exact ⟨rfl, hrest⟩

/-- The items of a list are told from its end. -/
theorem textEach_append_inj : ∀ {os os' : List Outline} {r r' : List Char}, LegibleEach os → LegibleEach os' →
    textEach os ++ ')' :: r = textEach os' ++ ')' :: r' → os = os' ∧ r = r'
  | [], [], r, r', _, _, h => ⟨rfl, (List.cons.inj h).2⟩
  | [], o' :: os', r, r', _, _, h => absurd (List.cons.inj h).1 (by decide)
  | o :: os, [], r, r', _, _, h => absurd (List.cons.inj h).1 (by decide)
  | o :: os, o' :: os', r, r', ⟨ho, hos⟩, ⟨ho', hos'⟩, h => by
    simp only [textEach, List.cons_append, List.append_assoc, List.cons.injEq, true_and] at h
    obtain ⟨rfl, htail⟩ := text_append_inj ho ho' (goesOut_textEach _ _) (goesOut_textEach _ _) h
    obtain ⟨rfl, hrest⟩ := textEach_append_inj hos hos' htail
    exact ⟨rfl, hrest⟩

end

/-- A text is printed for one outline only. -/
theorem text_injective {o o' : Outline} (ho : o.Legible) (ho' : o'.Legible) (h : o.text = o'.text) : o = o' := by
  have hend : GoesOut [] := rfl
  have happend : o.text ++ [] = o'.text ++ [] := by rw [h]
  exact (text_append_inj ho ho' hend hend happend).1

end unique

/-! ### Reading outlines -/

/-- The category of a word that is one token. -/
def kindOf? (w : String) : Option Kind :=
  match scan w with
  | [.ok t, _] => some t.kind
  | _ => none

/-- The tree of a list with a name at its head. -/
def named? : String → List PlainExpr → Option PlainExpr
  | "group", [inner] => some (.group () inner)
  | "call", callee :: arguments => some (.call () callee ⟨")", 0⟩ arguments)
  | "set", [.name property, object, value] => some (.set () object property.name value)
  | _, _ => none

/-- The tree of operands with an operator at their head. -/
def operated? (kind : Kind) (sign : Lexeme) : List PlainExpr → Option PlainExpr
  | [operand] => (Parser.prefixOp kind).map fun op => .unary () op sign operand
  | [left, right] =>
    match [Parser.conjunctionOp, Parser.disjunctionOp].findSome? (· kind) with
    | some op => some (.logical () op sign left right)
    | none => ([Parser.equality, Parser.comparison, Parser.sum, Parser.product].findSome? (· kind)).map fun op =>
        .binary () op sign left right
  | _ => none

/-- The tree of a list, from the category of its head and the trees of its items. -/
def headed? (head : String) : Kind → List PlainExpr → Option PlainExpr
  | .identifier, items => named? head items
  | .equal, [.name target, value] => some (.assign target value)
  | .dot, [.name property, object] => some (.get () object property.name)
  | .keyword .super, [.name method] => some (.super ⟨(), ⟨head, 0⟩⟩ method.name)
  | kind, items => operated? kind ⟨head, 0⟩ items

mutual

/-- The tree that an outline shows, with all its tokens on no line: a word is read as an expression of the language,
and a list by its head. -/
def tree? : Outline → Option PlainExpr
  | .word w => (readExpression w).toOption.map (·.map id Lexeme.unlined)
  | .list head items => do headed? head (← kindOf? head) (← trees? items)

/-- The trees that outlines show. -/
def trees? : List Outline → Option (List PlainExpr)
  | [] => some []
  | o :: rest => do return (← o.tree?) :: (← trees? rest)

end

end Outline

/-! ### Outlines of expressions -/

section outlines

variable {ι : Type}

mutual

/-- What is printed of an expression. -/
def Expr.outline : Expr ι → Outline
  | .literal _ value => .word value.render
  | .group _ inner => .list "group" [inner.outline]
  | .unary _ _ sign operand => .list sign.text [operand.outline]
  | .binary _ _ sign left right => .list sign.text [left.outline, right.outline]
  | .logical _ _ sign left right => .list sign.text [left.outline, right.outline]
  | .name ref => .word ref.name.text
  | .assign target value => .list "=" [.word target.name.text, value.outline]
  | .call _ callee _ arguments => .list "call" (callee.outline :: Expr.outlineEach arguments)
  | .get _ object property => .list "." [.word property.text, object.outline]
  | .set _ object property value => .list "set" [.word property.text, object.outline, value.outline]
  | .this _ => .word "this"
  | .super _ method => .list "super" [.word method.text]

/-- What is printed of expressions. -/
def Expr.outlineEach : List (Expr ι) → List Outline
  | [] => []
  | e :: rest => e.outline :: Expr.outlineEach rest

end

mutual

theorem Expr.toList_render : ∀ e : Expr ι, e.render.toList = e.outline.text
  | .literal _ _ | .name _ | .this _ => rfl
  | .group _ inner => by
    simp [Expr.render, Expr.outline, Outline.text, Outline.textEach, inner.toList_render]
  | .unary _ _ _ operand => by
    simp [Expr.render, Expr.outline, Outline.text, Outline.textEach, operand.toList_render]
  | .binary _ _ _ left right => by
    simp [Expr.render, Expr.outline, Outline.text, Outline.textEach, left.toList_render, right.toList_render]
  | .logical _ _ _ left right => by
    simp [Expr.render, Expr.outline, Outline.text, Outline.textEach, left.toList_render, right.toList_render]
  | .assign _ value => by
    simp [Expr.render, Expr.outline, Outline.text, Outline.textEach, value.toList_render]
  | .call _ callee _ arguments => by
    simp [Expr.render, Expr.outline, Outline.text, Outline.textEach, callee.toList_render,
      Expr.toList_renderEach arguments]
  | .get _ object _ => by
    simp [Expr.render, Expr.outline, Outline.text, Outline.textEach, object.toList_render]
  | .set _ object _ value => by
    simp [Expr.render, Expr.outline, Outline.text, Outline.textEach, object.toList_render, value.toList_render]
  | .super _ _ => by simp [Expr.render, Expr.outline, Outline.text, Outline.textEach]

theorem Expr.toList_renderEach : ∀ es : List (Expr ι),
    (Expr.renderEach es).toList = Outline.textEach (Expr.outlineEach es)
  | [] => rfl
  | e :: es => by
    simp [Expr.renderEach, Expr.outlineEach, Outline.textEach, e.toList_render, Expr.toList_renderEach es]

end

mutual

/-- The lines of tokens are not printed. -/
theorem Expr.outline_unlined : ∀ e : Expr ι, (e.map id Lexeme.unlined).outline = e.outline
  | .literal _ _ | .name _ | .this _ | .super _ _ => rfl
  | .group _ inner => by rw [Expr.map, Expr.outline, Expr.outline, inner.outline_unlined]
  | .unary _ _ _ operand => by rw [Expr.map, Expr.outline, Expr.outline, operand.outline_unlined, Lexeme.unlined]
  | .binary _ _ _ left right => by
    rw [Expr.map, Expr.outline, Expr.outline, left.outline_unlined, right.outline_unlined, Lexeme.unlined]
  | .logical _ _ _ left right => by
    rw [Expr.map, Expr.outline, Expr.outline, left.outline_unlined, right.outline_unlined, Lexeme.unlined]
  | .assign _ value => by rw [Expr.map, Expr.outline, Expr.outline, value.outline_unlined]; rfl
  | .call _ callee _ arguments => by
    rw [Expr.map, Expr.outline, Expr.outline, callee.outline_unlined, Expr.outlineEach_unlined arguments]
  | .get _ object _ => by rw [Expr.map, Expr.outline, Expr.outline, object.outline_unlined, Lexeme.unlined]
  | .set _ object _ value => by
    rw [Expr.map, Expr.outline, Expr.outline, object.outline_unlined, value.outline_unlined, Lexeme.unlined]

theorem Expr.outlineEach_unlined : ∀ es : List (Expr ι),
    Expr.outlineEach (Expr.mapEach id Lexeme.unlined es) = Expr.outlineEach es
  | [] => rfl
  | e :: es => by
    rw [Expr.mapEach, Expr.outlineEach, Expr.outlineEach, e.outline_unlined, Expr.outlineEach_unlined es]

end

end outlines

/-! ### Spelling -/

/-- Tokens that are written without parentheses and without quotes. -/
def Kind.bare : Kind → Bool
  | .leftParen | .rightParen | .string _ => false
  | _ => true

theorem Outline.inWord_of_isWordPart {c : Char} (h : isWordPart c) : c ≠ '(' ∧ endsWord c = false := by
  have hne (d : Char) (hd : isWordPart d = false) : c ≠ d := by
    rintro rfl
    exact Bool.false_ne_true (hd.symm.trans h)
  refine ⟨hne '(' (by decide), ?_⟩
  simp [endsWord, hne ' ' (by decide), hne ')' (by decide)]

/-- Such a token is written as one word. -/
theorem IsLexeme.isWord {w : String} {kind : Kind} (h : IsLexeme w.toList kind) (hk : kind.bare = true) :
    Outline.IsWord w := by
  have hdigits {digits : List Char} (hd : ∀ c ∈ digits, c.isDigit) :
      ∀ c ∈ digits, c ≠ '(' ∧ Outline.endsWord c = false := fun c hc =>
    Outline.inWord_of_isWordPart (by rw [isWordPart, hd c hc, Bool.or_true])
  unfold Outline.IsWord
  generalize w.toList = text at h
  cases h with
  | operator hmem =>
    have hall : ∀ p ∈ operators, p.2.bare = true → ∀ c ∈ p.1, c ≠ '(' ∧ Outline.endsWord c = false := by
      simp [operators, Kind.bare, Outline.endsWord]
    exact hall _ hmem hk
  | whole _ hd => exact hdigits hd
  | decimal _ _ hw hf =>
    exact List.forall_mem_append.mpr ⟨hdigits hw, List.forall_mem_cons.mpr ⟨by decide, hdigits hf⟩⟩
  | keyword word =>
    obtain ⟨c, rest, htext, hc, hrest⟩ := word.text_isWord
    rw [htext]
    refine List.forall_mem_cons.mpr ⟨?_, fun d hd => Outline.inWord_of_isWordPart (hrest d hd)⟩
    exact Outline.inWord_of_isWordPart (by rw [isWordPart, hc, Bool.true_or])
  | identifier hc hrest =>
    refine List.forall_mem_cons.mpr ⟨?_, fun d hd => Outline.inWord_of_isWordPart (hrest d hd)⟩
    exact Outline.inWord_of_isWordPart (by rw [isWordPart, hc, Bool.true_or])
  | string => cases hk

theorem IsLexeme.keyword_text {text : List Char} {word : Keyword} (h : IsLexeme text (.keyword word)) :
    text = word.text.toList := by
  cases h with
  | operator hmem => simp [operators] at hmem
  | keyword => rfl

theorem IsLexeme.rightParen_text {text : List Char} (h : IsLexeme text .rightParen) : text = [')'] := by
  cases h with
  | operator hmem => simpa [operators] using hmem

theorem IsLexeme.kindOf? {w : String} {kind : Kind} (h : IsLexeme w.toList kind) : Outline.kindOf? w = some kind := by
  have hscan := scan_lexeme h
  rw [String.ofList_toList] at hscan
  rw [Outline.kindOf?, hscan]

/-! ### Reading the outline of an expression -/

/-- A token whose value can be told from its text in a tree: it is no string, and no number that is too large for a
double. -/
def Kind.Legible : Kind → Prop
  | .string _ => False
  | .number x => x.isInf = false
  | _ => True

/-- A tree was read from legible tokens: each that it knows of is a lexeme of the grammar and legible. -/
def Expr.Legible {ι : Type} (e : Expr ι) : Prop :=
  ∀ x ∈ e.imprints, ∃ t : Token, x.Fits t ∧ IsLexeme t.text.toList t.kind ∧ t.kind.Legible

/-- A token that a legible tree has whole. -/
theorem Imprint.whole_isLexeme {l : Lexeme} {kind : Kind}
    (h : ∃ t : Token, (Imprint.whole ⟨l, kind⟩).Fits t ∧ IsLexeme t.text.toList t.kind ∧ t.kind.Legible) :
    IsLexeme l.text.toList kind := by
  obtain ⟨_, rfl, hlexeme, -⟩ := h
  exact hlexeme

namespace Outline

/-- An outline shows a tree: all its words are words, and the tree can be read off it but for the lines of tokens. -/
structure Shows (o : Outline) (e : PlainExpr) : Prop where
  legible : o.Legible
  read : o.tree? = some (e.map id Lexeme.unlined)

/-- Outlines show trees, each one its own. -/
structure ShowsEach (os : List Outline) (es : List PlainExpr) : Prop where
  legible : LegibleEach os
  read : trees? os = some (Expr.mapEach id Lexeme.unlined es)

theorem ShowsEach.nil : ShowsEach [] [] := ⟨trivial, rfl⟩

theorem ShowsEach.cons {o : Outline} {os : List Outline} {e : PlainExpr} {es : List PlainExpr} (h : o.Shows e)
    (hs : ShowsEach os es) : ShowsEach (o :: os) (e :: es) where
  legible := ⟨h.legible, hs.legible⟩
  read := by
    rw [trees?, h.read, hs.read]
    rfl

/-- A token that is an expression by itself. -/
theorem shows_word {w : String} {kind : Kind} (h : IsLexeme w.toList kind) (hk : kind.bare = true) {e : PlainExpr}
    (he : ∀ line, ∃ e', ExprText .primary [⟨⟨w, line⟩, kind⟩] e' ∧
      e'.map id Lexeme.unlined = e.map id Lexeme.unlined) : (word w).Shows e where
  legible := h.isWord hk
  read := by
    obtain ⟨e', htext, he'⟩ := he (1 + w.toList.count '\n')
    have hread : readExpression (String.ofList w.toList) = .ok e' := by
      refine readExpression_lexeme h ?_
      rwa [String.ofList_toList]
    rw [String.ofList_toList] at hread
    rw [tree?, hread, ← he']
    rfl

theorem shows_name {w : String} (h : IsLexeme w.toList .identifier) (ref : Reference Unit)
    (hw : ref.name.text = w) : (word w).Shows (.name ref) := by
  subst hw
  exact shows_word h rfl fun line => ⟨_, .name rfl, rfl⟩

/-- A list with a token at its head. -/
theorem shows_list {head : String} {kind : Kind} (h : IsLexeme head.toList kind) (hk : kind.bare = true)
    {items : List Outline} {es : List PlainExpr} (hs : ShowsEach items es) {e : PlainExpr}
    (he : headed? head kind (Expr.mapEach id Lexeme.unlined es) = some (e.map id Lexeme.unlined)) :
    (list head items).Shows e where
  legible := ⟨h.isWord hk, hs.legible⟩
  read := by
    rw [tree?, h.kindOf?, hs.read]
    exact he

end Outline

/-- The text of a legible literal is a token of its value. -/
theorem Literal.render_isLexeme {v : Literal} {t : Token} (ht : t.kind = v.kind) (h : IsLexeme t.text.toList t.kind)
    (hl : t.kind.Legible) : IsLexeme v.render.toList v.kind ∧ v.kind.bare = true := by
  rw [ht] at h hl
  cases v with
  | number x =>
    obtain ⟨bits, hle, rfl⟩ := Decimal.exists_bits_le h
    have hbits : bits < Decimal.infinityBits := by
      refine Nat.lt_of_le_of_ne hle ?_
      rintro rfl
      have hinf : (Float.ofBits (UInt64.ofNat Decimal.infinityBits)).isInf = true := by decide +kernel
      exact Bool.false_ne_true (hl.symm.trans hinf)
    exact ⟨Decimal.isLexeme_literalText hbits, rfl⟩
  | string => exact absurd hl id
  | bool b =>
    cases b with
    | true => exact ⟨.keyword .true, rfl⟩
    | false => exact ⟨.keyword .false, rfl⟩
  | nil => exact ⟨.keyword .nil, rfl⟩

section shows

open Outline

mutual

/-- The outline of a legible tree shows it. -/
theorem Expr.outline_shows : ∀ {e : PlainExpr}, e.Legible → e.outline.Shows e
  | .literal _ value, h => by
    obtain ⟨t, ht, hlexeme, hlegible⟩ := h _ List.mem_cons_self
    obtain ⟨hrender, hbare⟩ := Literal.render_isLexeme ht hlexeme hlegible
    exact shows_word hrender hbare fun line => ⟨_, .literal (literalValue_eq_some.mpr rfl), rfl⟩
  | .group _ inner, h => by
    simp only [Expr.Legible, Expr.imprints, List.forall_mem_cons, List.forall_mem_append] at h
    obtain ⟨-, hinner, -⟩ := h
    have hgroup : IsLexeme "group".toList .identifier := wordKind_isLexeme (c := 'g') rfl (List.all_eq_true.mp rfl)
    exact shows_list hgroup rfl (.cons (Expr.outline_shows hinner) .nil) rfl
  | .unary _ op sign operand, h => by
    simp only [Expr.Legible, Expr.imprints, List.forall_mem_cons] at h
    obtain ⟨hsign, hoperand⟩ := h
    refine shows_list (Imprint.whole_isLexeme hsign) ?_ (.cons (Expr.outline_shows hoperand) .nil) ?_
    · cases op <;> rfl
    · cases op <;> rfl
  | .binary _ op sign left right, h => by
    simp only [Expr.Legible, Expr.imprints, List.forall_mem_cons, List.forall_mem_append] at h
    obtain ⟨hleft, hsign, hright⟩ := h
    refine shows_list (Imprint.whole_isLexeme hsign) ?_
      (.cons (Expr.outline_shows hleft) (.cons (Expr.outline_shows hright) .nil)) ?_
    · cases op <;> rfl
    · cases op <;> rfl
  | .logical _ op sign left right, h => by
    simp only [Expr.Legible, Expr.imprints, List.forall_mem_cons, List.forall_mem_append] at h
    obtain ⟨hleft, hsign, hright⟩ := h
    refine shows_list (Imprint.whole_isLexeme hsign) ?_
      (.cons (Expr.outline_shows hleft) (.cons (Expr.outline_shows hright) .nil)) ?_
    · cases op <;> rfl
    · cases op <;> rfl
  | .name ref, h => by
    have hname := Imprint.whole_isLexeme (h _ List.mem_cons_self)
    exact shows_name hname ref rfl
  | .assign target value, h => by
    simp only [Expr.Legible, Expr.imprints, List.forall_mem_cons] at h
    obtain ⟨htarget, -, hvalue⟩ := h
    have hequal : IsLexeme "=".toList .equal := .operator (by decide)
    exact shows_list hequal rfl (.cons (shows_name (Imprint.whole_isLexeme htarget) target rfl)
      (.cons (Expr.outline_shows hvalue) .nil)) rfl
  | .call _ callee closing arguments, h => by
    simp only [Expr.Legible, Expr.imprints, List.forall_mem_cons, List.forall_mem_append] at h
    obtain ⟨hcallee, -, harguments, hclosing, -⟩ := h
    have htext : closing.text = ")" := by
      rw [← String.toList_inj, IsLexeme.rightParen_text (Imprint.whole_isLexeme hclosing)]
      rfl
    have hcall : IsLexeme "call".toList .identifier := wordKind_isLexeme (c := 'c') rfl (List.all_eq_true.mp rfl)
    refine shows_list hcall rfl (.cons (Expr.outline_shows hcallee) (Expr.outlineEach_shows harguments)) ?_
    rw [Expr.map, Lexeme.unlined, htext]
    rfl
  | .get _ object property, h => by
    simp only [Expr.Legible, Expr.imprints, List.forall_mem_cons, List.forall_mem_append] at h
    obtain ⟨hobject, -, hproperty, -⟩ := h
    have hdot : IsLexeme ".".toList .dot := .operator (by decide)
    exact shows_list hdot rfl (.cons (shows_name (Imprint.whole_isLexeme hproperty) ⟨(), property⟩ rfl)
      (.cons (Expr.outline_shows hobject) .nil)) rfl
  | .set _ object property value, h => by
    simp only [Expr.Legible, Expr.imprints, List.forall_mem_cons, List.forall_mem_append] at h
    obtain ⟨hobject, -, hproperty, -, hvalue⟩ := h
    have hset : IsLexeme "set".toList .identifier := wordKind_isLexeme (c := 's') rfl (List.all_eq_true.mp rfl)
    exact shows_list hset rfl (.cons (shows_name (Imprint.whole_isLexeme hproperty) ⟨(), property⟩ rfl)
      (.cons (Expr.outline_shows hobject) (.cons (Expr.outline_shows hvalue) .nil))) rfl
  | .this ref, h => by
    have htext := IsLexeme.keyword_text (Imprint.whole_isLexeme (h _ List.mem_cons_self))
    have hname : ref.name.text = "this" := String.toList_inj.mp htext
    refine shows_word (.keyword .this) rfl fun line => ⟨_, .this rfl, ?_⟩
    rw [Expr.map, Expr.map, Reference.map, Reference.map, Lexeme.unlined, Lexeme.unlined, hname]
    rfl
  | .super ref method, h => by
    simp only [Expr.Legible, Expr.imprints, List.forall_mem_cons] at h
    obtain ⟨hsuper, -, hmethod, -⟩ := h
    have htext := IsLexeme.keyword_text (Imprint.whole_isLexeme hsuper)
    have hname : ref.name.text = "super" := String.toList_inj.mp htext
    refine shows_list (.keyword .super) rfl
      (.cons (shows_name (Imprint.whole_isLexeme hmethod) ⟨(), method⟩ rfl) .nil) ?_
    rw [Expr.map, Reference.map, Lexeme.unlined, hname]
    rfl

theorem Expr.outlineEach_shows : ∀ {es : List PlainExpr},
    (∀ x ∈ Expr.imprintsEach es, ∃ t : Token, x.Fits t ∧ IsLexeme t.text.toList t.kind ∧ t.kind.Legible) →
      ShowsEach (Expr.outlineEach es) es
  | [], _ => .nil
  | [e], h => .cons (Expr.outline_shows h) .nil
  | e :: e' :: es, h => by
    simp only [Expr.imprintsEach, List.forall_mem_cons, List.forall_mem_append] at h
    obtain ⟨he, -, hes⟩ := h
    exact .cons (Expr.outline_shows he) (Expr.outlineEach_shows hes)

end

end shows

/-- What is printed for legible trees is the same only if the trees are, but for the lines of tokens. -/
theorem Expr.render_injective {e e' : PlainExpr} (he : e.Legible) (he' : e'.Legible) (h : e.render = e'.render) :
    e.map id Lexeme.unlined = e'.map id Lexeme.unlined := by
  have hshows := Expr.outline_shows he
  have hshows' := Expr.outline_shows he'
  have htext : e.outline.text = e'.outline.text := by rw [← e.toList_render, ← e'.toList_render, h]
  have hread := hshows.read
  rw [Outline.text_injective hshows.legible hshows'.legible htext, hshows'.read] at hread
  exact (Option.some.inj hread).symm

/-! ### Texts of expressions -/

section parsed

variable {source source' : String} {e e' : PlainExpr}

theorem Imprint.exists_fits {xs : List Imprint} {ts : List Token} (h : List.Forall₂ Imprint.Fits xs ts) :
    ∀ x ∈ xs, ∃ t ∈ ts, x.Fits t := by
  induction h with
  | nil => exact fun _ hx => absurd hx List.not_mem_nil
  | @cons x t xs ts ht _ ih =>
    refine List.forall_mem_cons.mpr ⟨⟨t, List.mem_cons_self, ht⟩, fun y hy => ?_⟩
    obtain ⟨u, hu, hfits⟩ := ih y hy
    exact ⟨u, List.mem_cons_of_mem _ hu, hfits⟩

/-- A tree is legible when the tokens of its text are. -/
theorem Expr.legible_of_parse (h : parseExpression (tokensOf (scan source)) = .ok e)
    (hs : ∀ t ∈ tokensOf (scan source), t.kind.Legible) : e.Legible := by
  have htext := parseExpression_sound h
  rw [textOf_scan] at htext
  intro x hx
  obtain ⟨t, ht, hfits⟩ := Imprint.exists_fits htext.flattens.1 x hx
  refine ⟨t, hfits, textTokens_isLexeme ht, hs t ?_⟩
  rw [tokensOf_scan]
  exact List.mem_append_left _ ht

/-- The printed tree determines the tree.  Of two expressions that are read from texts without strings and without
numbers too large for a double, the same is printed exactly when they are the same but for the lines of tokens: they
have the same nesting, the same operators, names and argument lists, and the same literals. -/
theorem render_eq_iff (h : parseExpression (tokensOf (scan source)) = .ok e)
    (h' : parseExpression (tokensOf (scan source')) = .ok e')
    (hs : ∀ t ∈ tokensOf (scan source), t.kind.Legible) (hs' : ∀ t ∈ tokensOf (scan source'), t.kind.Legible) :
    e.render = e'.render ↔ e.map id Lexeme.unlined = e'.map id Lexeme.unlined := by
  constructor
  · exact Expr.render_injective (Expr.legible_of_parse h hs) (Expr.legible_of_parse h' hs')
  · intro hmap
    have houtline : e.outline = e'.outline := by rw [← e.outline_unlined, hmap, e'.outline_unlined]
    rw [← String.toList_inj, e.toList_render, e'.toList_render, houtline]

/-- A call of a variable named `group`, on one line and on two, is printed as a call. -/
theorem render_eq_iff_group :
    ∃ e e' : PlainExpr, parseExpression (tokensOf (scan "group(x)")) = .ok e ∧
      parseExpression (tokensOf (scan "group(\nx)")) = .ok e' ∧ e ≠ e' ∧ e.render = "(call group x)" ∧
      (e.render = e'.render ↔ e.map id Lexeme.unlined = e'.map id Lexeme.unlined) := by
  have h : parseExpression (tokensOf (scan "group(x)")) =
      .ok (.call () (.name ⟨(), ⟨"group", 1⟩⟩) ⟨")", 1⟩ [.name ⟨(), ⟨"x", 1⟩⟩]) := by cbv
  have h' : parseExpression (tokensOf (scan "group(\nx)")) =
      .ok (.call () (.name ⟨(), ⟨"group", 1⟩⟩) ⟨")", 2⟩ [.name ⟨(), ⟨"x", 2⟩⟩]) := by cbv
  have hlegible {source : String}
      (hk : (tokensOf (scan source)).map (·.kind) = [.identifier, .leftParen, .identifier, .rightParen, .eof]) :
      ∀ t ∈ tokensOf (scan source), t.kind.Legible := by
    refine List.forall_mem_map.mp ?_
    rw [hk]
    simp [Kind.Legible]
  exact ⟨_, _, h, h', by simp, by decide, render_eq_iff h h' (hlegible (by cbv)) (hlegible (by cbv))⟩

end parsed

end Lox
