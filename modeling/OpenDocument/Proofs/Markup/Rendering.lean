import OpenDocument.Proofs.Markup.Pieces

/-!
# OpenDocument.Proofs.Markup.Rendering

What a writer writes, as pieces.  An outline takes the same calls as a writer, but keeps the
elements and attributes that they describe instead of text.  `Writes` says that a writer has
written the pieces of an outline; `events_render` is what a reader finds in the finished document.
-/

namespace OpenDocument.Markup

/-! ## Outlines -/

/-- What calls have described so far, as the pieces of a document. -/
structure Outline where
  pieces : List Piece := []
  /-- The start tag that still takes attributes. -/
  tag? : Option (String × List (String × String)) := none
  /-- The open elements, innermost first, but for the one of `tag?`. -/
  nesting : List String := []
  deriving DecidableEq, Repr

namespace Outline

/-- The outline with its last start tag complete, among the pieces. -/
def settle (o : Outline) : Outline :=
  match o.tag? with
  | none => o
  | some (name, as) =>
    { pieces := o.pieces ++ [.start name as], tag? := none, nesting := name :: o.nesting }

/-- What a call adds to an outline. -/
def call (o : Outline) : Call → Outline
  | .declaration => { o with pieces := o.pieces ++ [.declaration] }
  | .start name => { o.settle with tag? := some (name, []) }
  | .attr name value => { o with tag? := o.tag?.map fun t => (t.1, t.2 ++ [(name, value)]) }
  | .stop =>
    match o.tag?, o.nesting with
    | some (name, as), _ => { o with pieces := o.pieces ++ [.empty name as], tag? := none }
    | none, [] => o
    | none, name :: outer => { o with pieces := o.pieces ++ [.stop name], nesting := outer }

/-- What a sequence of calls adds to an outline. -/
def calls (o : Outline) (cs : List Call) : Outline :=
  cs.foldl Outline.call o

/-- All pieces, with every element of `nesting` closed. -/
def finish (o : Outline) : List Piece :=
  let last := o.tag?.toList.map fun t => .empty t.1 t.2
  o.pieces ++ last ++ o.nesting.map .stop

end Outline

/-- The pieces that a sequence of calls describes. -/
def pieces (cs : List Call) : List Piece :=
  (Outline.calls {} cs).finish

/-! ## Writers -/

/-- The start tag that an outline has not completed, as the writer has begun it. -/
def Outline.openText (o : Outline) : List Char :=
  match o.tag? with
  | none => []
  | some (name, as) =>
    List.replicate o.nesting.length ' ' ++ '<' :: (name.toList ++ attributesText as)

/-- A writer whose text is that of the outline: the `lines` of its pieces, and `openText` behind
them. -/
structure Writes (w : Writer) (o : Outline) : Prop where
  text : w.text.toList = lines [] o.pieces ++ o.openText
  nesting : w.nesting = (o.tag?.toList.map Prod.fst) ++ o.nesting
  tagOpen : w.tagOpen = o.tag?.isSome
  after : o.pieces.foldl Piece.after [] = o.nesting

theorem toList_indent (n : Nat) : (Writer.indent n).toList = List.replicate n ' ' := by
  rw [Writer.indent, String.toList_ofList]

theorem toList_start (w : Writer) (name : String) : (w.start name).text.toList
    = w.text.toList ++ (if w.tagOpen then ['>', '\n'] else [])
      ++ List.replicate w.nesting.length ' ' ++ '<' :: name.toList := by
  have hbefore : (if w.tagOpen then ">\n" else "").toList
      = if w.tagOpen then ['>', '\n'] else [] := by
    cases w.tagOpen <;> rfl
  simp only [Writer.start, String.toList_append, toList_indent, hbefore, List.append_assoc]
  rfl

theorem toList_attr {w : Writer} (h : w.tagOpen = true) (name value : String) :
    (w.attr name value).text.toList
      = w.text.toList ++ ' ' :: (name.toList ++ '=' :: '"' :: (escape value.toList ++ ['"'])) := by
  simp only [Writer.attr, if_pos h, String.toList_append, String.toList_ofList, List.append_assoc]
  rfl

theorem toList_stop_of_tagOpen {w : Writer} (h : w.tagOpen = true) {name : String}
    {outer : List String} (hn : w.nesting = name :: outer) :
    w.stop.text.toList = w.text.toList ++ ['/', '>', '\n'] := by
  simp only [Writer.stop, hn, if_pos h, String.toList_append]
  rfl

theorem toList_stop {w : Writer} (h : w.tagOpen = false) {name : String}
    {outer : List String} (hn : w.nesting = name :: outer) :
    w.stop.text.toList = w.text.toList ++ List.replicate outer.length ' '
      ++ '<' :: '/' :: (name.toList ++ ['>', '\n']) := by
  simp only [Writer.stop, hn, h, Bool.false_eq_true, if_false, String.toList_append, toList_indent,
    List.append_assoc]
  rfl

theorem lines_concat {ps : List Piece} {nesting : List String}
    (h : ps.foldl Piece.after [] = nesting) (p : Piece) :
    lines [] (ps ++ [p])
      = lines [] ps ++ List.replicate (p.depth nesting) ' ' ++ p.body ++ ['\n'] := by
  rw [lines_append, h]
  simp [lines]

theorem after_concat {ps : List Piece} {nesting : List String}
    (h : ps.foldl Piece.after [] = nesting) (p : Piece) :
    (ps ++ [p]).foldl Piece.after [] = p.after nesting := by
  rw [List.foldl_append, h]
  rfl

namespace Writes

variable {w : Writer} {o : Outline}

theorem start (h : Writes w o) (name : String) : Writes (w.start name) (o.call (.start name)) := by
  obtain ⟨pieces, tag?, nesting⟩ := o
  obtain ⟨htext, hnesting, hopen, hafter⟩ := h
  cases tag? with
  | none =>
      have htag : w.tagOpen = false := hopen
      refine ⟨?_, ?_, rfl, hafter⟩
      · rw [toList_start, htext, htag, hnesting]
        simp [Outline.call, Outline.settle, Outline.openText, attributesText]
      · simp [Writer.start, Outline.call, Outline.settle, hnesting]
  | some tag =>
      obtain ⟨tagName, as⟩ := tag
      have htag : w.tagOpen = true := hopen
      refine ⟨?_, ?_, rfl, after_concat hafter _⟩
      · simp only [Outline.call, Outline.settle, Outline.openText, lines_concat hafter]
        rw [toList_start, htext, htag, hnesting]
        simp [Outline.openText, attributesText]
      · simp [Writer.start, Outline.call, Outline.settle, hnesting]

theorem attr (h : Writes w o) (name value : String) :
    Writes (w.attr name value) (o.call (.attr name value)) := by
  obtain ⟨pieces, tag?, nesting⟩ := o
  obtain ⟨htext, hnesting, hopen, hafter⟩ := h
  cases tag? with
  | none =>
      have hsame : w.attr name value = w := by
        rw [Writer.attr, if_neg (by simp [hopen])]
      rw [hsame]
      exact ⟨htext, hnesting, hopen, hafter⟩
  | some tag =>
      have htag : w.tagOpen = true := hopen
      refine ⟨?_, ?_, ?_, hafter⟩
      · rw [toList_attr htag, htext]
        simp [Outline.call, Outline.openText, attributesText]
      · simp [Writer.attr, htag, Outline.call, hnesting]
      · simp [Writer.attr, htag, Outline.call]

theorem stop (h : Writes w o) : Writes w.stop (o.call .stop) := by
  obtain ⟨pieces, tag?, nesting⟩ := o
  obtain ⟨htext, hnesting, hopen, hafter⟩ := h
  cases tag? with
  | none =>
      have htag : w.tagOpen = false := hopen
      cases nesting with
      | nil =>
          have hsame : w.stop = w := by
            rw [Writer.stop, hnesting]
            rfl
          rw [hsame]
          exact ⟨htext, hnesting, hopen, hafter⟩
      | cons name outer =>
          refine ⟨?_, ?_, ?_, after_concat hafter _⟩
          · simp only [Outline.call, Outline.openText, lines_concat hafter]
            rw [toList_stop htag hnesting, htext]
            simp [Outline.openText]
          · simp [Writer.stop, hnesting, htag, Outline.call]
          · simp [Writer.stop, hnesting, htag, Outline.call]
  | some tag =>
      obtain ⟨name, as⟩ := tag
      have htag : w.tagOpen = true := hopen
      refine ⟨?_, ?_, ?_, after_concat hafter _⟩
      · simp only [Outline.call, Outline.openText, lines_concat hafter]
        rw [toList_stop_of_tagOpen htag hnesting, htext]
        simp [Outline.openText]
      · simp [Writer.stop, hnesting, htag, Outline.call]
      · simp [Writer.stop, hnesting, htag, Outline.call]

/-- A declaration is written in front of everything else, and `Writes` holds behind it. -/
theorem declaration : Writes Writer.empty.declaration (Outline.call {} .declaration) :=
  ⟨rfl, rfl, rfl, rfl⟩

/-- Every call behind the declaration keeps `Writes` between writer and outline. -/
theorem calls (h : Writes w o) {cs : List Call} (hd : .declaration ∉ cs) :
    Writes (w.calls cs) (o.calls cs) := by
  induction cs generalizing w o with
  | nil => exact h
  | cons c cs ih =>
      simp only [List.mem_cons, not_or] at hd
      have hc : Writes (w.call c) (o.call c) := by
        cases c with
        | declaration => exact absurd rfl hd.1
        | start name => exact h.start name
        | attr name value => exact h.attr name value
        | stop => exact h.stop
      exact ih hc hd.2

/-- The elements that are still open are closed one by one by `stopMany`. -/
theorem stopMany {ps : List Piece} {nesting : List String} (h : Writes w ⟨ps, none, nesting⟩) :
    (w.stopMany nesting.length).text.toList = lines [] (ps ++ nesting.map .stop) := by
  induction nesting generalizing w ps with
  | nil =>
      have htext := h.text
      rw [Outline.openText, List.append_nil] at htext
      rwa [List.map_nil, List.append_nil]
  | cons name outer ih =>
      have hstop : Writes w.stop ⟨ps ++ [.stop name], none, outer⟩ := h.stop
      rw [List.length_cons, Writer.stopMany, ih hstop, List.append_assoc]
      rfl

/-- The document by `Writer.finish` is the text of the pieces by `Outline.finish`. -/
theorem finish (h : Writes w o) : w.finish.toList = lines [] o.finish := by
  obtain ⟨ps, tag?, nesting⟩ := o
  cases tag? with
  | none =>
      have hlen : w.nesting.length = nesting.length := by simp [h.nesting]
      rw [Writer.finish, hlen, stopMany h]
      simp [Outline.finish]
  | some tag =>
      obtain ⟨name, as⟩ := tag
      have hlen : w.nesting.length = nesting.length + 1 := by simp [h.nesting]
      have hstop : Writes w.stop ⟨ps ++ [.empty name as], none, nesting⟩ := h.stop
      rw [Writer.finish, hlen, Writer.stopMany, stopMany hstop]
      simp [Outline.finish]

end Writes

/-- The document of calls by `render` is the text of their `pieces`. -/
theorem toList_render {cs : List Call} (hd : .declaration ∉ cs.tail) :
    (render cs).toList = lines [] (pieces cs) := by
  by_cases hhead : cs.head? = some .declaration
  · obtain ⟨rest, rfl⟩ : ∃ rest, cs = .declaration :: rest := by
      cases cs with
      | nil => cases hhead
      | cons c rest => cases hhead; exact ⟨rest, rfl⟩
    exact (Writes.declaration.calls hd).finish
  · have hnone : .declaration ∉ cs := by
      cases cs with
      | nil => exact List.not_mem_nil
      | cons c rest =>
          intro hmem
          rcases List.mem_cons.mp hmem with rfl | hmem
          · exact hhead rfl
          · exact hd hmem
    have hempty : Writes Writer.empty {} := ⟨rfl, rfl, rfl, rfl⟩
    exact (hempty.calls hnone).finish

/-! ## Well-named calls -/

/-- A call with a name that can be read (`IsName`), if it has one. -/
def Call.IsNamed : Call → Prop
  | .start name => IsName name
  | .attr name _ => IsName name
  | _ => True

instance : DecidablePred Call.IsNamed
  | .start name => inferInstanceAs (Decidable (IsName name))
  | .attr name _ => inferInstanceAs (Decidable (IsName name))
  | .declaration | .stop => inferInstanceAs (Decidable True)

/-- An outline with names that can be read. -/
structure Outline.Fits (o : Outline) : Prop where
  pieces : Fit [] o.pieces
  after : o.pieces.foldl Piece.after [] = o.nesting
  tag : ∀ t ∈ o.tag?, IsName t.1 ∧ ∀ a ∈ t.2, IsName a.1
  nesting : ∀ name ∈ o.nesting, IsName name

namespace Outline.Fits

variable {o : Outline}

theorem concat {ps : List Piece} {nesting : List String} (h : Fit [] ps)
    (ha : ps.foldl Piece.after [] = nesting) {p : Piece} (hp : p.Fits nesting) :
    Fit [] (ps ++ [p]) := by
  rw [fit_append, ha]
  exact ⟨h, hp, trivial⟩

theorem settle (h : o.Fits) : o.settle.Fits := by
  obtain ⟨ps, tag?, nesting⟩ := o
  cases tag? with
  | none => exact h
  | some t =>
      have ht := h.tag t rfl
      refine ⟨concat h.pieces h.after ht, after_concat h.after _, by simp [Outline.settle], ?_⟩
      exact List.forall_mem_cons.mpr ⟨ht.1, h.nesting⟩

theorem call (h : o.Fits) {c : Call} (hc : c.IsNamed) : (o.call c).Fits := by
  cases c with
  | declaration =>
      exact ⟨concat h.pieces h.after trivial, after_concat h.after _, h.tag, h.nesting⟩
  | start name =>
      have hs := h.settle
      refine ⟨hs.pieces, hs.after, ?_, hs.nesting⟩
      intro t ht
      cases ht
      exact ⟨hc, by simp⟩
  | attr name value =>
      refine ⟨h.pieces, h.after, ?_, h.nesting⟩
      intro t ht
      obtain ⟨t', ht', rfl⟩ := Option.map_eq_some_iff.mp ht
      obtain ⟨hn, ha⟩ := h.tag t' ht'
      refine ⟨hn, ?_⟩
      intro a hmem
      rcases List.mem_append.mp hmem with hmem | hmem
      · exact ha a hmem
      · rw [List.mem_singleton.mp hmem]
        exact hc
  | stop =>
      obtain ⟨ps, tag?, nesting⟩ := o
      cases tag? with
      | some t =>
          exact ⟨concat h.pieces h.after (h.tag t rfl), after_concat h.after _,
            by simp [Outline.call], h.nesting⟩
      | none =>
          cases nesting with
          | nil => exact h
          | cons name outer =>
              obtain ⟨hname, houter⟩ := List.forall_mem_cons.mp h.nesting
              exact ⟨concat h.pieces h.after ⟨hname, rfl⟩, after_concat h.after _,
                by simp [Outline.call], houter⟩

theorem calls (h : o.Fits) {cs : List Call} (hc : ∀ c ∈ cs, c.IsNamed) : (o.calls cs).Fits := by
  induction cs generalizing o with
  | nil => exact h
  | cons c cs ih =>
      obtain ⟨hc, hcs⟩ := List.forall_mem_cons.mp hc
      exact ih (h.call hc) hcs

theorem fit_stops {nesting : List String} (h : ∀ name ∈ nesting, IsName name) :
    Fit nesting (nesting.map .stop) := by
  induction nesting with
  | nil => trivial
  | cons name outer ih =>
      obtain ⟨hname, houter⟩ := List.forall_mem_cons.mp h
      exact ⟨⟨hname, rfl⟩, ih houter⟩

theorem finish (h : o.Fits) : Fit [] o.finish := by
  obtain ⟨ps, tag?, nesting⟩ := o
  have hps := h.pieces
  have hafter := h.after
  cases tag? with
  | none =>
      simp only [Outline.finish, Option.toList_none, List.map_nil, List.append_nil]
      rw [fit_append, hafter]
      exact ⟨hps, fit_stops h.nesting⟩
  | some t =>
      simp only [Outline.finish, Option.toList_some, List.map_singleton]
      rw [fit_append, after_concat hafter]
      exact ⟨concat hps hafter (h.tag t rfl), fit_stops h.nesting⟩

end Outline.Fits

theorem fit_pieces {cs : List Call} (h : ∀ c ∈ cs, c.IsNamed) : Fit [] (pieces cs) := by
  have hempty : ({} : Outline).Fits := ⟨trivial, rfl, by simp, by simp⟩
  exact (hempty.calls h).finish

/-! ## What a reader finds -/

/-- **A document by `render` is read as the pieces that its calls describe**, without a fault and
with nothing but white space between them. -/
theorem events_render {cs : List Call} (hd : .declaration ∉ cs.tail)
    (hn : ∀ c ∈ cs, c.IsNamed) :
    ∃ es, events (render cs).toList = (es, none)
      ∧ es.filter Event.isMarkup = (pieces cs).map Piece.event
      ∧ ∀ t, .text t ∈ es → t.all isSpace = true := by
  rw [toList_render hd]
  exact events_lines (fit_pieces hn)

end OpenDocument.Markup
