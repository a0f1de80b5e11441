import OpenDocument.Markup.Escape

/-!
# OpenDocument.Markup.Writer

A writer of indented markup. A document is built call by call: `start` opens an element,
`attr` adds to the start tag that was written last, `stop` closes the innermost element, and
`finish` closes whatever is still open. Every element stands on a line of its own, indented by
one space for each element around it; an element without children is written as one empty tag.
-/

namespace OpenDocument.Markup

/-- The text written so far and the elements that are still open. -/
structure Writer where
  text : String := ""
  /-- Names of the open elements, innermost first. -/
  nesting : List String := []
  /-- Whether the last start tag can still take attributes. -/
  tagOpen : Bool := false
  deriving DecidableEq, Repr

namespace Writer

/-- A writer that has written nothing. -/
def empty : Writer := {}

/-- One space for each of `depth` enclosing elements. -/
def indent (depth : Nat) : String :=
  String.ofList (List.replicate depth ' ')

/-- Write the declaration of a UTF-8 document. -/
def declaration (w : Writer) : Writer :=
  { w with text := w.text ++ "<?xml version=\"1.0\" encoding=\"UTF-8\"?>\n" }

/-- Open an element inside the innermost open one; `attr` may follow. -/
def start (w : Writer) (name : String) : Writer :=
  let before := if w.tagOpen then ">\n" else ""
  { text := w.text ++ before ++ indent w.nesting.length ++ "<" ++ name
    nesting := name :: w.nesting
    tagOpen := true }

/-- Add an attribute to the start tag written last; without effect if that tag is complete. -/
def attr (w : Writer) (name value : String) : Writer :=
  if w.tagOpen then
    { w with
      text := w.text ++ " " ++ name ++ "=\"" ++ String.ofList (escape value.toList) ++ "\"" }
  else w

/-- Close the innermost open element; without effect if none is open. -/
def stop (w : Writer) : Writer :=
  match w.nesting with
  | [] => w
  | name :: outer =>
    if w.tagOpen then
      { text := w.text ++ "/>\n", nesting := outer, tagOpen := false }
    else
      { text := w.text ++ indent outer.length ++ "</" ++ name ++ ">\n"
        nesting := outer
        tagOpen := false }

/-- Close the innermost `n` elements. -/
def stopMany (w : Writer) : Nat → Writer
  | 0 => w
  | n + 1 => w.stop.stopMany n

/-- The document, with every element closed by `stopMany`. -/
def finish (w : Writer) : String :=
  (w.stopMany w.nesting.length).text

end Writer

/-! ## Calls as data -/

/-- One call on a `Writer`, so that a document is a list of them. -/
inductive Call where
  | declaration
  | start (name : String)
  | attr (name value : String)
  | stop
  deriving DecidableEq, Repr

/-- What a call does to a writer. -/
def Writer.call (w : Writer) : Call → Writer
  | .declaration => w.declaration
  | .start name => w.start name
  | .attr name value => w.attr name value
  | .stop => w.stop

/-- A sequence of calls, made in order. -/
def Writer.calls (w : Writer) (cs : List Call) : Writer :=
  cs.foldl Writer.call w

/-- The document that a sequence of calls describes, from an `empty` writer. -/
def render (cs : List Call) : String :=
  (Writer.empty.calls cs).finish

end OpenDocument.Markup
