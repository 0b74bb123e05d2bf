import Mathlib
import Lox.Proofs.Lines
import Lox.Proofs.Munching

/-! # The lines of items

A line end closes whatever a text ends with, but for a string; so the items of a text and of another one below it
are those of the one and, further down, those of the other (`scan_below`).  The scanner counts line ends as it goes
and stamps each item with the count behind the span of the item.  After any number of items it has read the text up
to the end of the last one and counted the line ends there (`Scanner.HasRead.next`, `Scanner.HasRead.emits`), so
the line of an item is that of the end of its span, and lines never go back (`scan_lines`). -/

namespace Lox

/-! ### Texts below each other -/

namespace Item

/-- The line of an item. -/
def line : Item → Nat
  | .ok t => t.line
  | .error e => e.line

/-- An item some lines further down. -/
def lower (k : Nat) : Item → Item
  | .ok t => .ok (t.map (Lexeme.lower k))
  | .error e => .error ⟨e.fault, e.line + k⟩

end Item

theorem Span.item?_lower (line k : Nat) (s : Span) :
    s.item? (line + k) = (s.item? line).map (Item.lower k) := by
  unfold Span.item?
  cases s.reading <;> rfl

/-- Spans further down are the same items further down. -/
theorem items_lower (line k : Nat) (ss : List Span) :
    items (line + k) ss = (items line ss).map (Item.lower k) := by
  induction ss generalizing line with
  | nil => rfl
  | cons s ss ih =>
      rw [items, items, Span.lastLine_lower, Span.item?_lower, ih]
      cases s.item? (s.lastLine line) <;> rfl

/-- The items of spans are followed by those of the spans behind them instead of the end-of-file token. -/
theorem items_append (line : Nat) (ss : List Span) :
    ∃ body, items line ss = body ++ [.ok (Token.eof (endLine line ss))] ∧
      ∀ ss', items line (ss ++ ss') = body ++ items (endLine line ss) ss' := by
  induction ss generalizing line with
  | nil => exact ⟨[], rfl, fun _ => rfl⟩
  | cons s ss ih =>
      obtain ⟨body, hbody, happend⟩ := ih (s.lastLine line)
      have hend : endLine line (s :: ss) = endLine (s.lastLine line) ss := rfl
      simp only [items, List.cons_append, hend]
      cases s.item? (s.lastLine line) with
      | none => exact ⟨body, hbody, happend⟩
      | some item =>
          refine ⟨item :: body, ?_, fun ss' => ?_⟩
          · rw [hbody, List.cons_append]
          · rw [happend, List.cons_append]

/-- A faulty span is reported. -/
theorem mem_faultsOf_items (line : Nat) {ss : List Span} {s : Span} {fault : LexFault} (hs : s ∈ ss)
    (hr : s.reading = .faulty fault) : ∃ l, ⟨fault, l⟩ ∈ faultsOf (items line ss) := by
  induction ss generalizing line with
  | nil => exact absurd hs List.not_mem_nil
  | cons s' ss ih =>
      rcases List.mem_cons.mp hs with rfl | hs
      · refine ⟨s.lastLine line, ?_⟩
        have hitem : s.item? (s.lastLine line) = some (.error ⟨fault, s.lastLine line⟩) := by
          simp only [Span.item?, hr]
        rw [items, hitem]
        exact List.mem_cons_self
      · obtain ⟨l, hl⟩ := ih (s'.lastLine line) hs
        refine ⟨l, ?_⟩
        unfold faultsOf at hl ⊢
        rw [items]
        cases s'.item? (s'.lastLine line) with
        | none => exact hl
        | some item => exact (List.sublist_cons_self _ _).filterMap _ |>.subset hl

/-- When the strings of a text end, its items and those of a text below it are the items of the two texts, without
the end-of-file token of the first, and those of the second further down by the lines of the first. -/
theorem scan_below {source : String} (source' : String)
    (h : ∀ e ∈ faultsOf (scan source), e.fault ≠ .unterminatedString) :
    ∃ body line, scan source = body ++ [.ok (Token.eof line)] ∧
      scan (below source source') = body ++ (scan source').map (Item.lower (lineCount source)) := by
  have hclosed : ∀ s ∈ spans source.toList, s.reading ≠ .faulty .unterminatedString := by
    intro s hs hr
    rw [scan_eq] at h
    obtain ⟨l, hl⟩ := mem_faultsOf_items 1 hs hr
    exact h _ hl rfl
  have htext : (below source source').toList = source.toList ++ '\n' :: source'.toList := by simp [below]
  have hline : endLine 1 (spans source.toList) + 1 = 1 + lineCount source := by
    rw [endLine_eq, flatten_spans]
    rfl
  obtain ⟨body, hbody, happend⟩ := items_append 1 (spans source.toList)
  refine ⟨body, _, (scan_eq source).trans hbody, ?_⟩
  calc scan (below source source')
      = items 1 (spans source.toList ++ ⟨['\n'], .trivia⟩ :: spans source'.toList) := by
        rw [scan_eq, htext, spans_line _ hclosed]
    _ = body ++ items (endLine 1 (spans source.toList) + 1) (spans source'.toList) := happend _
    _ = body ++ (scan source').map (Item.lower (lineCount source)) := by
        rw [hline, items_lower, scan_eq]

/-- A text that ends in a comment with a quote in it, and one below it that starts with a string on two lines. -/
theorem scan_below_comment :
    let source := "a.b == c // \"\r"
    let source' := "\"a\nb\" €"
    (∀ e ∈ faultsOf (scan source), e.fault ≠ .unterminatedString) ∧
      ∃ body line, scan source = body ++ [.ok (Token.eof line)] ∧
        scan (below source source') = body ++ (scan source').map (Item.lower 1) := by
  intro source source'
  have hnone : faultsOf (scan source) = [] := by cbv
  have h : ∀ e ∈ faultsOf (scan source), e.fault ≠ .unterminatedString := by simp [hnone]
  have hline : lineCount source = 1 := by cbv
  have hbelow := scan_below source' h
  rw [hline] at hbelow
  exact ⟨h, hbelow⟩

/-! ### What the scanner has read -/

/-- The line on which a text ends. -/
def lineAfter (text : List Char) : Nat := 1 + text.count '\n'

theorem lineAfter_le (front more : List Char) : lineAfter front ≤ lineAfter (front ++ more) := by
  rw [lineAfter, lineAfter, List.count_append]
  omega

/-- An item covers the span of a text between two others: a span that the grammar asks for, or nothing at the end
of the text.  A string without an end reaches to the end of the text. -/
structure Item.Covers (item : Item) (text before : List Char) (s : Span) (rest : List Char) : Prop where
  text_eq : before ++ s.text ++ rest = text
  shown : s.Shows item
  cut : s.Munched rest ∨ s = ⟨[], .token .eof⟩
  last : s.reading = .faulty .unterminatedString ∨ s.reading = .token .eof → rest = []

namespace Scanner

/-- The scanner has read the front of a text and counted the line ends in it. -/
structure HasRead (text front : List Char) (s : Scanner) : Prop where
  rest : ∃ rest, front ++ rest = text ∧ s.rest = utf8 rest
  line : s.line = lineAfter front
  done : s.done = true → front = text

theorem hasRead_start (source : String) : (start source).HasRead source.toList [] where
  rest := ⟨source.toList, rfl, utf8_toList source⟩
  line := rfl
  done := by rintro ⟨⟩

theorem hasRead_before {text front rest : List Char} (h : front ++ rest = text) :
    (before rest (lineAfter front)).HasRead text front where
  rest := ⟨rest, h, rfl⟩
  line := rfl
  done := by rintro ⟨⟩

theorem HasRead.eq_before {text front : List Char} {s : Scanner} (h : s.HasRead text front) (hd : s.done = false) :
    ∃ rest, front ++ rest = text ∧ s = before rest (lineAfter front) := by
  obtain ⟨rest, htext, hrest⟩ := h.rest
  refine ⟨rest, htext, ?_⟩
  obtain ⟨bytes, line, done⟩ := s
  obtain rfl : bytes = utf8 rest := hrest
  obtain rfl : line = lineAfter front := h.line
  obtain rfl : done = false := hd
  rfl

end Scanner

theorem Span.lastLine_lineAfter (front : List Char) (s : Span) :
    s.lastLine (lineAfter front) = lineAfter (front ++ s.text) := by
  rw [Span.lastLine, lineAfter, lineAfter, List.count_append, Nat.add_assoc]

theorem Span.item?_eq_some {s : Span} {line : Nat} {item : Item} (h : s.item? line = some item) :
    s.Shows item ∧ item.line = line := by
  unfold Span.item? at h
  cases hr : s.reading with
  | trivia =>
    rw [hr] at h
    cases h
  | token kind =>
    rw [hr] at h
    cases h
    exact ⟨.token _ hr, rfl⟩
  | faulty fault =>
    rw [hr] at h
    cases h
    exact ⟨.faulty _ hr, rfl⟩

namespace Scanner

/-- The scanner goes on past trivia to the next span and stamps the item of the span with the line on which the
text ends that is read then. -/
theorem next_before {text front rest : List Char} {item : Item} {s' : Scanner} (htext : front ++ rest = text)
    (hn : (before rest (lineAfter front)).next = .ok (some item, s')) :
    ∃ gap s after, item.Covers text (front ++ gap) s after ∧ s'.HasRead text (front ++ gap ++ s.text) ∧
      item.line = lineAfter (front ++ gap ++ s.text) := by
  fun_induction spans rest generalizing front with
  | case1 =>
    rw [next_nil] at hn
    cases hn
    rw [List.append_nil] at htext
    refine ⟨[], ⟨[], .token .eof⟩, [], ⟨by simpa using htext, .token _ rfl, .inr rfl, fun _ => rfl⟩, ?_, ?_⟩
    · rw [List.append_nil, List.append_nil]
      exact ⟨⟨[], by rwa [List.append_nil], rfl⟩, rfl, fun _ => htext⟩
    · rw [List.append_nil, List.append_nil]
      rfl
  | case2 c rest ih =>
    rw [next_utf8] at hn
    dsimp only at hn
    have hmunched := Span.first_munched (Prod.eta (Span.first c rest)).symm
    have hlexed := Span.first_lexed c rest
    have happend := Span.first_append c rest
    generalize Span.first c rest = cut at *
    obtain ⟨s, after⟩ := cut
    dsimp only at *
    have hafter : front ++ s.text ++ after = text := by rw [List.append_assoc, happend, htext]
    rw [Span.lastLine_lineAfter] at hn
    cases hitem : s.item? (lineAfter (front ++ s.text)) with
    | some item =>
      rw [hitem] at hn
      cases hn
      obtain ⟨hshown, hline⟩ := Span.item?_eq_some hitem
      have hlast : s.reading = .faulty .unterminatedString ∨ s.reading = .token .eof → after = [] :=
        Or.rec hmunched.unterminated_text fun hr => absurd rfl (hlexed _ hr).1
      refine ⟨[], s, after, ⟨?_, hshown, .inl hmunched, hlast⟩, ?_, ?_⟩
      · rwa [List.append_nil]
      · rw [List.append_nil]
        exact hasRead_before hafter
      · rw [List.append_nil]
        exact hline
    | none =>
      -- Trivia are read and their line ends counted; the item is one of what comes after them.
      rw [hitem] at hn
      obtain ⟨gap, s', after', hcovers, hread, hline⟩ := ih hafter hn
      rw [List.append_assoc front] at hcovers hread hline
      exact ⟨s.text ++ gap, s', after', hcovers, hread, hline⟩

/-- What one step of the scanner keeps: it has read the text up to the end of the span that the item covers. -/
theorem HasRead.next {text front : List Char} {s s' : Scanner} {item : Item} (h : s.HasRead text front)
    (hn : s.next = .ok (some item, s')) :
    ∃ gap sp after, item.Covers text (front ++ gap) sp after ∧ s'.HasRead text (front ++ gap ++ sp.text) ∧
      item.line = lineAfter (front ++ gap ++ sp.text) := by
  cases hd : s.done with
  | true =>
    rw [Scanner.next, if_pos hd] at hn
    cases hn
  | false =>
    obtain ⟨rest, htext, rfl⟩ := h.eq_before hd
    exact next_before htext hn

/-- What a run of the scanner keeps: the lines of its items go up from the line that it starts on. -/
theorem HasRead.emits {text front : List Char} {s last : Scanner} {stream : List Item} (h : s.HasRead text front)
    (he : s.Emits stream last) :
    (∃ front', last.HasRead text front') ∧ (∀ item ∈ stream, lineAfter front ≤ item.line) ∧
      stream.Pairwise fun item later => item.line ≤ later.line := by
  induction he generalizing front with
  | nil s => exact ⟨⟨front, h⟩, fun _ hi => absurd hi List.not_mem_nil, .nil⟩
  | @cons s s' last item others hn _ ih =>
    obtain ⟨gap, sp, after, -, hread, hline⟩ := h.next hn
    obtain ⟨hlast, hle, hpairwise⟩ := ih hread
    have hitem : lineAfter front ≤ item.line := by
      rw [hline, List.append_assoc]
      exact lineAfter_le front _
    refine ⟨hlast, List.forall_mem_cons.mpr ⟨hitem, fun later hl => ?_⟩, .cons (fun later hl => ?_) hpairwise⟩
    · exact hitem.trans (hline ▸ hle later hl)
    · exact hline ▸ hle later hl

/-- A run of the scanner may be cut in two. -/
theorem Emits.split {s last : Scanner} {stream more : List Item} (h : s.Emits (stream ++ more) last) :
    ∃ mid, s.Emits stream mid ∧ mid.Emits more last := by
  induction stream generalizing s with
  | nil => exact ⟨s, .nil s, h⟩
  | cons item stream ih =>
    cases h with
    | cons hn hmore =>
      obtain ⟨mid, hstream, hmid⟩ := ih hmore
      exact ⟨mid, .cons hn hstream, hmid⟩

theorem Emits.snoc {s mid last : Scanner} {stream : List Item} {item : Item} (h : s.Emits stream mid)
    (hn : mid.next = .ok (some item, last)) : s.Emits (stream ++ [item]) last := by
  induction h with
  | nil s => exact .cons hn (.nil last)
  | cons hitem _ ih => exact .cons hitem (ih hn)

end Scanner

/-- When the scanner gives an item of the stream it has read the text up to the end of the span that the item
covers, and the line of the item is one more than the number of line ends in what is read.  So lines never go
back along the stream. -/
theorem scan_lines (source : String) :
    (∀ stream item others, scan source = stream ++ item :: others →
      ∃ s before span rest, (Scanner.start source).Emits (stream ++ [item]) s ∧
        item.Covers source.toList before span rest ∧ s.HasRead source.toList (before ++ span.text) ∧
        item.line = 1 + (before ++ span.text).count '\n') ∧
    (scan source).Pairwise fun item later => item.line ≤ later.line := by
  have hstart := Scanner.hasRead_start source
  obtain ⟨last, hemits, -⟩ := Scanner.emits_utf8 source.toList 1
  rw [← Scanner.start_eq, ← scan_eq] at hemits
  refine ⟨fun stream item others hscan => ?_, (hstart.emits hemits).2.2⟩
  rw [hscan] at hemits
  obtain ⟨mid, hstream, hmid⟩ := hemits.split
  obtain ⟨⟨front, hread⟩, -⟩ := hstart.emits hstream
  cases hmid with
  | @cons _ s _ _ _ hn _ =>
    obtain ⟨gap, span, rest, hcovers, hread', hline⟩ := hread.next hn
    exact ⟨s, front ++ gap, span, rest, hstream.snoc hn, hcovers, hread', hline⟩

end Lox
