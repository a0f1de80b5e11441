import OpenDocument.Proofs.Markup.Rendering

/-!
# OpenDocument.Proofs.Markup.Forest

The elements that calls describe, and the elements that a reader finds.  A `Grove` has complete
elements and open ones.  A `Scene` is what calls describe: it only adds that the element opened last
may still take attributes.  `forest?` reads a grove off the events of a document, from the tags and
the attributes that are in them.  `Tells` keeps the pieces of an outline and a scene together, call
by call, and `shown_render` is the result: what is read is what was described.
-/

namespace OpenDocument.Markup

/-! ## Elements -/

/-- An element, with its attributes and its children in order. -/
inductive Element where
  | node (name : String) (attributes : List (String × String)) (children : List Element)
  deriving Repr

/-- An element in which no attribute has the name of another one, and neither in any below. -/
inductive Element.Distinct : Element → Prop
  | node {name : String} {attributes : List (String × String)} {children : List Element}
      (ha : (attributes.map Prod.fst).Nodup) (hc : ∀ e ∈ children, e.Distinct) :
      Distinct (.node name attributes children)

theorem Element.Distinct.nodup {name : String} {attributes : List (String × String)}
    {children : List Element} (h : (Element.node name attributes children).Distinct) :
    (attributes.map Prod.fst).Nodup := by
  cases h; assumption

theorem Element.Distinct.children {name : String} {attributes : List (String × String)}
    {children : List Element} (h : (Element.node name attributes children).Distinct) :
    ∀ e ∈ children, e.Distinct := by
  cases h; assumption

/-- An element that is still open: more children may come behind those it has; compare `Element`. -/
structure Frame where
  name : String
  attributes : List (String × String)
  children : List Element := []
  deriving Repr

/-- The `Element` that an open one becomes when it is closed. -/
def Frame.element (f : Frame) : Element :=
  .node f.name f.attributes f.children

/-- The complete elements at the top level, and the open ones as frames, innermost first. -/
structure Grove where
  roots : List Element := []
  nesting : List Frame := []
  deriving Repr

namespace Grove

/-- A complete element goes behind the other children of the innermost open one. -/
def add (g : Grove) (e : Element) : Grove :=
  match g.nesting with
  | [] => { g with roots := g.roots ++ [e] }
  | f :: outer => { g with nesting := { f with children := f.children ++ [e] } :: outer }

/-- Open an element inside of the innermost open one. -/
def start (g : Grove) (name : String) (attributes : List (String × String)) : Grove :=
  { g with nesting := ⟨name, attributes, []⟩ :: g.nesting }

/-- One more attribute for the innermost open element. -/
def attr (g : Grove) (name value : String) : Grove :=
  match g.nesting with
  | [] => g
  | f :: outer =>
    { g with nesting := { f with attributes := f.attributes ++ [(name, value)] } :: outer }

/-- Close the innermost open element, if there is one. -/
def stop (g : Grove) : Grove :=
  match g.nesting with
  | [] => g
  | f :: outer => add { g with nesting := outer } f.element

/-- Close the innermost `n` elements. -/
def stopMany (g : Grove) : Nat → Grove
  | 0 => g
  | n + 1 => g.stop.stopMany n

/-- All elements, with the open ones closed. -/
def finish (g : Grove) : List Element :=
  (g.stopMany g.nesting.length).roots

/-- No attribute of an element has the name of another one (`Element.Distinct`), whether the element
is open or not. -/
structure Distinct (g : Grove) : Prop where
  roots : ∀ e ∈ g.roots, e.Distinct
  nesting : ∀ f ∈ g.nesting, f.element.Distinct

/-- No name of an open element changes by `add`, -/
theorem map_name_add (g : Grove) (e : Element) :
    (g.add e).nesting.map Frame.name = g.nesting.map Frame.name := by
  obtain ⟨roots, nesting⟩ := g
  cases nesting <;> rfl

/-- so the outer ones stay open behind a `stop` of the innermost one. -/
theorem map_name_stop {g : Grove} {f : Frame} {outer : List Frame} (h : g.nesting = f :: outer) :
    g.stop.nesting.map Frame.name = outer.map Frame.name := by
  rw [stop, h]
  exact map_name_add _ _

theorem length_nesting_stop {g : Grove} {n : Nat} (h : g.nesting.length = n + 1) :
    g.stop.nesting.length = n := by
  obtain ⟨f, outer, hg⟩ := List.exists_cons_of_length_eq_add_one h
  have hlength := congrArg List.length (map_name_stop hg)
  rw [List.length_map, List.length_map] at hlength
  rw [hg, List.length_cons] at h
  exact hlength.trans (Nat.succ.inj h)

/-- What `add` keeps: whatever repeats a name goes on doing so. -/
theorem Distinct.of_add {g : Grove} {e : Element} (h : (g.add e).Distinct) :
    g.Distinct ∧ e.Distinct := by
  obtain ⟨roots, nesting⟩ := g
  cases nesting with
  | nil =>
      have hroots := List.forall_mem_append.mp h.roots
      exact ⟨⟨hroots.1, by simp⟩, hroots.2 e (List.mem_singleton_self e)⟩
  | cons f outer =>
      obtain ⟨hf, houter⟩ := List.forall_mem_cons.mp h.nesting
      have hchildren := List.forall_mem_append.mp hf.children
      have hframe : f.element.Distinct := .node hf.nodup hchildren.1
      exact ⟨⟨h.roots, List.forall_mem_cons.mpr ⟨hframe, houter⟩⟩,
        hchildren.2 e (List.mem_singleton_self e)⟩

theorem Distinct.of_start {g : Grove} {name : String} {attributes : List (String × String)}
    (h : (g.start name attributes).Distinct) : g.Distinct :=
  ⟨h.roots, (List.forall_mem_cons.mp h.nesting).2⟩

theorem Distinct.of_attr {g : Grove} {name value : String} (h : (g.attr name value).Distinct) :
    g.Distinct := by
  obtain ⟨roots, nesting⟩ := g
  cases nesting with
  | nil => exact h
  | cons f outer =>
      obtain ⟨hf, houter⟩ := List.forall_mem_cons.mp h.nesting
      have hnodup := hf.nodup
      rw [List.map_append] at hnodup
      have hframe : f.element.Distinct := .node hnodup.of_append_left hf.children
      exact ⟨h.roots, List.forall_mem_cons.mpr ⟨hframe, houter⟩⟩

theorem Distinct.of_stop {g : Grove} (h : g.stop.Distinct) : g.Distinct := by
  obtain ⟨roots, nesting⟩ := g
  cases nesting with
  | nil => exact h
  | cons f outer =>
      obtain ⟨hg, hf⟩ := Distinct.of_add h
      exact ⟨hg.roots, List.forall_mem_cons.mpr ⟨hf, hg.nesting⟩⟩

/-- Nothing is open in a grove after a `stopMany` for every open element. -/
theorem nesting_stopMany {g : Grove} {n : Nat} (h : g.nesting.length = n) :
    (g.stopMany n).nesting = [] := by
  induction n generalizing g with
  | zero => exact List.length_eq_zero_iff.mp h
  | succ n ih => exact ih (length_nesting_stop h)

theorem Distinct.of_stopMany {g : Grove} {n : Nat} (h : (g.stopMany n).Distinct) : g.Distinct := by
  induction n generalizing g with
  | zero => exact h
  | succ n ih => exact (ih h).of_stop

/-- What the elements of a grove repeat, those of its `finish` repeat. -/
theorem Distinct.of_finish {g : Grove} (h : ∀ e ∈ g.finish, e.Distinct) : g.Distinct := by
  have hclosed : (g.stopMany g.nesting.length).Distinct :=
    ⟨h, by simp [nesting_stopMany rfl]⟩
  exact hclosed.of_stopMany

end Grove

/-! ## What calls describe -/

/-- The elements that calls have described so far, as a `Grove`. -/
structure Scene where
  grove : Grove := {}
  /-- Whether the last call that opened or closed an element has opened one. -/
  taking : Bool := false
  deriving Repr

/-- What a call describes; compare `Outline.call`, which has it as pieces. -/
def Scene.call (s : Scene) : Call → Scene
  | .declaration => s
  | .start name => { grove := s.grove.start name [], taking := true }
  | .attr name value => if s.taking then { s with grove := s.grove.attr name value } else s
  | .stop => if s.grove.nesting.isEmpty then s else { grove := s.grove.stop, taking := false }

/-- What a sequence of calls describes. -/
def Scene.calls (s : Scene) (cs : List Call) : Scene :=
  cs.foldl Scene.call s

/-- The elements that a sequence of calls describes, with the open ones closed by `Grove.finish`. -/
def forest (cs : List Call) : List Element :=
  (Scene.calls {} cs).grove.finish

/-- No `call` takes back a repeated name. -/
theorem Scene.distinct_of_call {s : Scene} {c : Call} (h : (s.call c).grove.Distinct) :
    s.grove.Distinct := by
  cases c with
  | declaration => exact h
  | start name => exact Grove.Distinct.of_start h
  | attr name value =>
      rw [Scene.call] at h
      cases ht : s.taking with
      | true =>
          rw [ht, if_pos rfl] at h
          exact Grove.Distinct.of_attr h
      | false =>
          rw [ht, if_neg Bool.false_ne_true] at h
          exact h
  | stop =>
      rw [Scene.call] at h
      split at h
      · exact h
      · exact Grove.Distinct.of_stop h

theorem Scene.distinct_of_calls {s : Scene} {cs : List Call} (h : (s.calls cs).grove.Distinct) :
    s.grove.Distinct := by
  induction cs generalizing s with
  | nil => exact h
  | cons c cs ih => exact Scene.distinct_of_call (ih h)

/-! ## What a reader finds -/

/-- What one event adds to a grove.  An end tag must name the innermost open element, and the
attributes of a tag must be well-formed (`attributes?`). -/
def Grove.read (g : Grove) : Event → Option Grove
  | .text _ | .comment | .instruction => some g
  | .start tag => tag.attributes?.map fun as => g.start (String.ofList tag.name) as
  | .empty tag => tag.attributes?.map fun as => g.add (.node (String.ofList tag.name) as [])
  | .stop name =>
    match g.nesting with
    | [] => none
    | f :: _ => if f.name.toList = name then some g.stop else none
  | .characterData | .documentType => none

/-- The elements that `Grove.read` finds in the given events; none of them may be open at the
end. -/
def forest? (es : List Event) : Option (List Element) := do
  let g ← es.foldlM Grove.read {}
  guard g.nesting.isEmpty
  return g.roots

section

variable {g : Grove} {name : String} {as : List (String × String)}

theorem Grove.read_start (hn : ∀ a ∈ as, IsName a.1) (hd : (as.map Prod.fst).Nodup) :
    g.read (Piece.start name as).event = some (g.start name as) := by
  have htag : (⟨name.toList, attributesText as⟩ : Tag).attributes? = some as :=
    attributes?_of_attributesText rfl hn hd
  simp only [Piece.event, Grove.read, htag, Option.map_some, String.ofList_toList]

theorem Grove.read_empty (hn : ∀ a ∈ as, IsName a.1) (hd : (as.map Prod.fst).Nodup) :
    g.read (Piece.empty name as).event = some (g.start name as).stop := by
  have htag : (⟨name.toList, attributesText as⟩ : Tag).attributes? = some as :=
    attributes?_of_attributesText rfl hn hd
  simp only [Piece.event, Grove.read, htag, Option.map_some, String.ofList_toList]
  rfl

theorem Grove.read_stop {f : Frame} {outer : List Frame} (h : g.nesting = f :: outer) :
    g.read (Piece.stop f.name).event = some g.stop := by
  simp only [Piece.event, Grove.read, h, if_true]

end

/-- The grove behind the pieces of a document, read by `Grove.read`. -/
def readPieces (ps : List Piece) : Option Grove :=
  (ps.map Piece.event).foldlM Grove.read {}

theorem readPieces_concat {ps : List Piece} {g : Grove} (h : readPieces ps = some g) (p : Piece) :
    readPieces (ps ++ [p]) = g.read p.event := by
  rw [readPieces] at h
  rw [readPieces, List.map_append, List.foldlM_append, h]
  simp

/-! ## Calls and pieces -/

/-- An `Outline` and a `Scene` that tell the same: what is read from the pieces is what was
described, up to the start tag that still takes attributes. -/
inductive Tells : Outline → Scene → Prop
  | settled {ps : List Piece} {g : Grove} (h : readPieces ps = some g) :
      Tells ⟨ps, none, g.nesting.map Frame.name⟩ ⟨g, false⟩
  | taking {ps : List Piece} {g : Grove} {name : String} {as : List (String × String)}
      (h : readPieces ps = some g) :
      Tells ⟨ps, some (name, as), g.nesting.map Frame.name⟩ ⟨g.start name as, true⟩

namespace Tells

variable {o : Outline} {s : Scene}

/-- The names of the attributes that a start tag has taken so far are distinct, if its grove is. -/
theorem nodup_of_distinct {g : Grove} {name : String} {as : List (String × String)}
    (h : (g.start name as).Distinct) : (as.map Prod.fst).Nodup :=
  (h.nesting _ (List.mem_cons_self ..)).nodup

/-- **Every call keeps an outline and a scene together**: `Tells` goes on to hold. -/
theorem call (h : Tells o s) (ho : o.Fits) (hs : s.grove.Distinct) (c : Call) :
    Tells (o.call c) (s.call c) := by
  cases h with
  | @settled ps g h =>
      cases c with
      | declaration => exact .settled ((readPieces_concat h _).trans rfl)
      | start name => exact .taking h
      | attr name value => exact .settled h
      | stop =>
          cases hg : g.nesting with
          | nil =>
              simp only [Outline.call, Scene.call, hg, List.map_nil, List.isEmpty_nil, if_true]
              simpa only [hg, List.map_nil] using Tells.settled h
          | cons f outer =>
              simp only [Outline.call, Scene.call, hg, List.map_cons, List.isEmpty_cons,
                Bool.false_eq_true, if_false, ← Grove.map_name_stop hg]
              exact .settled ((readPieces_concat h _).trans (Grove.read_stop hg))
  | @taking ps g name as h =>
      have hn := (ho.tag _ rfl).2
      have hd := nodup_of_distinct hs
      cases c with
      | declaration => exact .taking ((readPieces_concat h _).trans rfl)
      | start name' => exact .taking ((readPieces_concat h _).trans (Grove.read_start hn hd))
      | attr name' value => exact .taking h
      | stop =>
          have hnames : (g.start name as).stop.nesting.map Frame.name = g.nesting.map Frame.name :=
            Grove.map_name_stop rfl
          simp only [Outline.call, Scene.call, ← hnames]
          exact .settled ((readPieces_concat h _).trans (Grove.read_empty hn hd))

theorem calls (h : Tells o s) (ho : o.Fits) {cs : List Call} (hc : ∀ c ∈ cs, c.IsNamed)
    (hs : (s.calls cs).grove.Distinct) : Tells (o.calls cs) (s.calls cs) := by
  induction cs generalizing o s with
  | nil => exact h
  | cons c cs ih =>
      obtain ⟨hc, hcs⟩ := List.forall_mem_cons.mp hc
      have hcall : (s.call c).grove.Distinct := Scene.distinct_of_calls hs
      exact ih (h.call ho (Scene.distinct_of_call hcall) c) (ho.call hc) hcs hs

/-- The elements that are still open are closed one by one, as `stopMany` does it. -/
theorem stops {ps : List Piece} {g : Grove} {n : Nat} (h : readPieces ps = some g)
    (hn : g.nesting.length = n) :
    readPieces (ps ++ (g.nesting.map Frame.name).map .stop) = some (g.stopMany n) := by
  induction n generalizing ps g with
  | zero =>
      rw [List.length_eq_zero_iff.mp hn, List.map_nil, List.map_nil, List.append_nil]
      exact h
  | succ n ih =>
      obtain ⟨f, outer, hg⟩ := List.exists_cons_of_length_eq_add_one hn
      have hread := (readPieces_concat h (.stop f.name)).trans (Grove.read_stop hg)
      have hrest := ih hread (Grove.length_nesting_stop hn)
      rw [Grove.map_name_stop hg] at hrest
      rwa [hg, List.map_cons, List.map_cons, ← List.singleton_append, ← List.append_assoc]

/-- The pieces of the finished outline are read as the elements that were described. -/
theorem finish (h : Tells o s) (ho : o.Fits) (hs : s.grove.Distinct) :
    ∃ g, readPieces o.finish = some g ∧ g.nesting = [] ∧ g.roots = s.grove.finish := by
  cases h with
  | @settled ps g h =>
      refine ⟨_, ?_, Grove.nesting_stopMany rfl, rfl⟩
      rw [Outline.finish, Option.toList_none, List.map_nil, List.append_nil]
      exact stops h rfl
  | @taking ps g name as h =>
      have hread := (readPieces_concat h (.empty name as)).trans
        (Grove.read_empty (ho.tag _ rfl).2 (nodup_of_distinct hs))
      have hnames : (g.start name as).stop.nesting.map Frame.name = g.nesting.map Frame.name :=
        Grove.map_name_stop rfl
      have hlength : (g.start name as).stop.nesting.length = g.nesting.length :=
        Grove.length_nesting_stop rfl
      refine ⟨_, ?_, Grove.nesting_stopMany hlength, rfl⟩
      rw [Outline.finish, Option.toList_some, List.map_singleton, ← hnames]
      exact stops hread hlength

end Tells

/-! ## Documents -/

/-- What a reader finds in the document of calls, event by event: the elements of `forest`, and
nothing but white space around them. -/
structure Shown (cs : List Call) (es : List Event) : Prop where
  read : events (render cs).toList = (es, none)
  forest : forest? es = some (forest cs)
  blank : ∀ t, .text t ∈ es → t.all isSpace = true
  bare : .characterData ∉ es

/-- **A written document shows the elements that its calls describe.**  Calls may come in any order:
elements may stay open, more may be closed than were opened, attributes may have no start tag to go
to, and there may be any number of elements at the top level. -/
theorem shown_render {cs : List Call} (hd : .declaration ∉ cs.tail) (hn : ∀ c ∈ cs, c.IsNamed)
    (ha : ∀ e ∈ forest cs, e.Distinct) : ∃ es, Shown cs es := by
  have hdistinct : (Scene.calls {} cs).grove.Distinct := Grove.Distinct.of_finish ha
  have hempty : ({} : Outline).Fits := ⟨trivial, rfl, by simp, by simp⟩
  have htells : Tells (Outline.calls {} cs) (Scene.calls {} cs) :=
    Tells.calls (.settled rfl) hempty hn hdistinct
  obtain ⟨g, hread, hclosed, hroots⟩ := htells.finish (hempty.calls hn) hdistinct
  obtain ⟨es, heq, hfilter, hblank⟩ := events_render hd hn
  have hfold : es.foldlM Grove.read {} = some g := by
    rw [← foldlM_filter_isMarkup (fun _ _ => rfl), hfilter]
    exact hread
  refine ⟨es, heq, ?_, hblank, ?_⟩
  · rw [forest?, hfold]
    simp [guard, hclosed, hroots, forest]
  · intro hmem
    have hmarkup : Event.isMarkup .characterData = true := rfl
    have hpiece := List.mem_filter.mpr ⟨hmem, hmarkup⟩
    rw [hfilter] at hpiece
    obtain ⟨p, -, hp⟩ := List.mem_map.mp hpiece
    cases p <;> cases hp

/-- Two elements at the top level, the second one left open with its child.  Two calls have nothing
to close, two attributes have nothing to go to, and the values look like markup. -/
theorem shown_render_open :
    let cs : List Call := [.declaration, .stop, .attr "lost" "0", .start "a",
      .attr "v" "\"/><b c='", .start "b", .attr "w" "&amp;", .stop, .attr "late" "1", .stop, .stop,
      .start "c", .start "d", .attr "v" "</d>"]
    ∃ es, Shown cs es
      ∧ forest cs = [.node "a" [("v", "\"/><b c='")] [.node "b" [("w", "&amp;")] []],
        .node "c" [] [.node "d" [("v", "</d>")] []]] := by
  intro cs
  have hforest : forest cs = [.node "a" [("v", "\"/><b c='")] [.node "b" [("w", "&amp;")] []],
      .node "c" [] [.node "d" [("v", "</d>")] []]] := rfl
  have ha : ∀ e ∈ forest cs, e.Distinct := by
    have leaf {name : String} {a : String × String} : (Element.node name [a] []).Distinct :=
      .node (List.nodup_singleton _) (by simp)
    rw [hforest, List.forall_mem_cons, List.forall_mem_singleton]
    exact ⟨.node (List.nodup_singleton _) (by simpa using leaf), .node List.nodup_nil
      (by simpa using leaf)⟩
  have hn : ∀ c ∈ cs, c.IsNamed := by decide
  obtain ⟨es, h⟩ := shown_render (by decide) hn ha
  exact ⟨es, h, hforest⟩

end OpenDocument.Markup
