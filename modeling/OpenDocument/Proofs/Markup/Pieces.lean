import OpenDocument.Markup.Writer
import OpenDocument.Proofs.Markup.Syntax

/-!
# OpenDocument.Proofs.Markup.Pieces

A written document as a list of pieces, one on each line, and the events that are read from it:
`events_lines`.  Each piece is a lexeme, with white space around it.
-/

namespace OpenDocument.Markup

/-- One line of a written document. -/
inductive Piece where
  | declaration
  | start (name : String) (attributes : List (String × String))
  | empty (name : String) (attributes : List (String × String))
  | stop (name : String)
  deriving DecidableEq, Repr

namespace Piece

/-- The tag of a piece, without its indent and the end of its line. -/
def body : Piece → List Char
  | declaration => "<?xml version=\"1.0\" encoding=\"UTF-8\"?>".toList
  | start name as => '<' :: (name.toList ++ attributesText as ++ ['>'])
  | empty name as => '<' :: (name.toList ++ attributesText as ++ ['/', '>'])
  | stop name => '<' :: '/' :: (name.toList ++ ['>'])

/-- The `Event` that is read from a piece. -/
def event : Piece → Event
  | declaration => .instruction
  | start name as => .start ⟨name.toList, attributesText as⟩
  | empty name as => .empty ⟨name.toList, attributesText as⟩
  | stop name => .stop name.toList

/-- The open elements behind a piece, innermost first, given those in front of it. -/
def after (nesting : List String) : Piece → List String
  | start name _ => name :: nesting
  | stop _ => nesting.tail
  | _ => nesting

/-- How far a piece is indented. -/
def depth (nesting : List String) : Piece → Nat
  | declaration => 0
  | stop _ => nesting.tail.length
  | _ => nesting.length

/-- A piece with names that can be read, which closes the innermost element if it closes one. -/
def Fits (nesting : List String) : Piece → Prop
  | declaration => True
  | start name as => IsName name ∧ ∀ a ∈ as, IsName a.1
  | empty name as => IsName name ∧ ∀ a ∈ as, IsName a.1
  | stop name => IsName name ∧ nesting.head? = some name

section

variable (name : String) (as : List (String × String)) (nesting : List String)

@[simp] theorem body_start :
    (start name as).body = '<' :: (name.toList ++ attributesText as ++ ['>']) := rfl

@[simp] theorem body_empty :
    (empty name as).body = '<' :: (name.toList ++ attributesText as ++ ['/', '>']) := rfl

@[simp] theorem body_stop : (stop name).body = '<' :: '/' :: (name.toList ++ ['>']) := rfl

@[simp] theorem depth_start : (start name as).depth nesting = nesting.length := rfl

@[simp] theorem depth_empty : (empty name as).depth nesting = nesting.length := rfl

@[simp] theorem depth_stop : (stop name).depth nesting = nesting.tail.length := rfl

end

end Piece

/-- The text of pieces inside of open elements, each on a line of its own. -/
def lines (nesting : List String) : List Piece → List Char
  | [] => []
  | p :: ps =>
    List.replicate (p.depth nesting) ' ' ++ p.body ++ '\n' :: lines (p.after nesting) ps

/-- Pieces that fit (`Piece.Fits`), one behind the other. -/
def Fit (nesting : List String) : List Piece → Prop
  | [] => True
  | p :: ps => p.Fits nesting ∧ Fit (p.after nesting) ps

theorem lines_append (nesting : List String) (ps qs : List Piece) :
    lines nesting (ps ++ qs) = lines nesting ps ++ lines (ps.foldl Piece.after nesting) qs := by
  induction ps generalizing nesting with
  | nil => rfl
  | cons p ps ih => simp [lines, ih]

theorem fit_append (nesting : List String) (ps qs : List Piece) :
    Fit nesting (ps ++ qs) ↔ Fit nesting ps ∧ Fit (ps.foldl Piece.after nesting) qs := by
  induction ps generalizing nesting with
  | nil => simp [Fit]
  | cons p ps ih => simp [Fit, ih, and_assoc]

/-! ## Pieces as lexemes -/

namespace Piece

/-- A piece as the `Lexeme` that it is written as. -/
def lexeme : Piece → Lexeme
  | declaration => .instruction "xml version=\"1.0\" encoding=\"UTF-8\"".toList
  | start name as => .start { name, attributes := as.map .ofPair }
  | empty name as => .empty { name, attributes := as.map .ofPair }
  | stop name => .stop name []

theorem written_lexeme (p : Piece) : p.lexeme.written = p.body := by
  cases p with
  | declaration => rfl
  | start name as | empty name as =>
      simp [lexeme, Lexeme.written, WrittenTag.inside, attributesText_eq]
  | stop name => simp [lexeme, Lexeme.written]

theorem event?_lexeme (p : Piece) : p.lexeme.event? = some p.event := by
  cases p with
  | declaration | stop name => rfl
  | start name as | empty name as =>
      simp [lexeme, Lexeme.event?, WrittenTag.tag, WrittenTag.inside, attributesText_eq, event]

section

variable {nesting : List String} {p : Piece}

theorem Fits.wellFormed_lexeme (h : p.Fits nesting) : p.lexeme.WellFormed := by
  cases p with
  | declaration => exact ⟨by decide, by decide +kernel⟩
  | start name as | empty name as =>
      exact ⟨h.1, List.forall_mem_map.mpr fun a ha => WrittenAttribute.wellFormed_ofPair (h.2 a ha),
        rfl⟩
  | stop name => exact ⟨h.1, rfl⟩

theorem Fits.nest_lexeme (h : p.Fits nesting) : p.lexeme.nest nesting = some (p.after nesting) := by
  cases p with
  | declaration | start name as | empty name as => rfl
  | stop name => exact if_pos h.2

end

end Piece

/-- The lexemes of a document of pieces: `lines` has a line for every piece. -/
def lexemes (nesting : List String) : List Piece → List Lexeme
  | [] => []
  | p :: ps =>
    .text (List.replicate (p.depth nesting) ' ') :: p.lexeme :: .text ['\n']
      :: lexemes (p.after nesting) ps

theorem written_lexemes (nesting : List String) (ps : List Piece) :
    written (lexemes nesting ps) = lines nesting ps := by
  induction ps generalizing nesting with
  | nil => rfl
  | cons p ps ih =>
      have hps := ih (p.after nesting)
      rw [written] at hps
      simp [written, lexemes, lines, hps, Piece.written_lexeme]

theorem filterMap_event?_lexemes (nesting : List String) (ps : List Piece) :
    (lexemes nesting ps).filterMap Lexeme.event? = ps.map Piece.event := by
  induction ps generalizing nesting with
  | nil => rfl
  | cons p ps ih =>
      rw [lexemes, List.filterMap_cons_none rfl, List.filterMap_cons_some p.event?_lexeme,
        List.filterMap_cons_none rfl, ih, List.map_cons]

/-- Nothing but white space stands between the `lexemes` of pieces. -/
theorem isSpace_of_text_mem {nesting : List String} {ps : List Piece} {content : List Char}
    (h : .text content ∈ lexemes nesting ps) : ∀ c ∈ content, isSpace c = true := by
  induction ps generalizing nesting with
  | nil => cases h
  | cons p ps ih =>
      simp only [lexemes, List.mem_cons, Lexeme.text.injEq] at h
      rcases h with rfl | h | rfl | h
      · intro c hc
        rw [List.eq_of_mem_replicate hc]
        rfl
      · cases p <;> cases h
      · simp [isSpace]
      · exact ih h

theorem ne_of_isSpace {c : Char} (h : isSpace c = true) : c ≠ '<' ∧ c ≠ '&' := by
  simp only [isSpace, Bool.or_eq_true, beq_iff_eq] at h
  rcases h with ((rfl | rfl) | rfl) | rfl <;> decide

theorem referencesClosed_of_not_mem {cs : List Char} (h : '&' ∉ cs) :
    referencesClosed false cs = true := by
  induction cs with
  | nil => rfl
  | cons c cs ih =>
      simp only [List.mem_cons, not_or] at h
      rw [referencesClosed, if_neg (Ne.symm h.1), Bool.false_and, ih h.2]

theorem wellFormed_text {content : List Char} (h : ∀ c ∈ content, isSpace c = true) :
    (Lexeme.text content).WellFormed :=
  ⟨fun hmem => (ne_of_isSpace (h _ hmem)).1 rfl,
    referencesClosed_of_not_mem fun hmem => (ne_of_isSpace (h _ hmem)).2 rfl⟩

theorem wellFormed_of_mem_lexemes {nesting : List String} {ps : List Piece} (h : Fit nesting ps) :
    ∀ l ∈ lexemes nesting ps, l.WellFormed := by
  induction ps generalizing nesting with
  | nil => simp [lexemes]
  | cons p ps ih =>
      obtain ⟨hp, hps⟩ := h
      have hfirst : .text (List.replicate (p.depth nesting) ' ') ∈ lexemes nesting (p :: ps) :=
        List.mem_cons_self ..
      rw [lexemes, List.forall_mem_cons, List.forall_mem_cons, List.forall_mem_cons]
      exact ⟨wellFormed_text (isSpace_of_text_mem hfirst),
        hp.wellFormed_lexeme, wellFormed_text (by simp [isSpace]), ih hps⟩

theorem nest_lexemes {nesting : List String} {ps : List Piece} (h : Fit nesting ps) :
    (lexemes nesting ps).foldlM Lexeme.nest nesting = some (ps.foldl Piece.after nesting) := by
  induction ps generalizing nesting with
  | nil => rfl
  | cons p ps ih =>
      obtain ⟨hp, hps⟩ := h
      simp only [lexemes, List.foldlM_cons, Lexeme.nest_text, hp.nest_lexeme, ih hps,
        Option.bind_eq_bind, Option.bind_some, List.foldl_cons]

/-- **Pieces that fit are read back** from `lines`, one by one, without a fault and with nothing but
white space between them. -/
theorem events_lines {ps : List Piece} (h : Fit [] ps) :
    ∃ es, events (lines [] ps) = (es, none)
      ∧ es.filter Event.isMarkup = ps.map Piece.event
      ∧ ∀ t, .text t ∈ es → t.all isSpace = true := by
  obtain ⟨es, heq, hfilter, htext⟩ :=
    events_written (wellFormed_of_mem_lexemes h) (nest_lexemes h)
  rw [written_lexemes] at heq
  refine ⟨es, heq, hfilter.trans (filterMap_event?_lexemes [] ps), fun t ht => ?_⟩
  rw [List.all_eq_true]
  intro c hc
  obtain ⟨content, hmem, hc⟩ := htext t ht c hc
  exact isSpace_of_text_mem hmem c hc

/-! ## Folds over events -/

/-- A fold that passes over text does not need it: what `isMarkup` leaves is enough. -/
theorem foldlM_filter_isMarkup {m : Type → Type} [Monad m] [LawfulMonad m] {β : Type}
    {f : β → Event → m β} (h : ∀ b t, f b (.text t) = pure b) (b : β) (es : List Event) :
    (es.filter Event.isMarkup).foldlM f b = es.foldlM f b := by
  induction es generalizing b with
  | nil => rfl
  | cons e es ih =>
      cases e with
      | text t =>
          rw [List.foldlM_cons, h, pure_bind]
          exact ih b
      | _ =>
          simp only [List.filter_cons, Event.isMarkup, if_true, List.foldlM_cons]
          exact bind_congr ih

end OpenDocument.Markup
