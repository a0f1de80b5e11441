import OpenDocument.Proofs.Manifest
import OpenDocument.Proofs.Package.Filing
import OpenDocument.Proofs.Zip.Ends
import OpenDocument.Proofs.Zip.Room

/-!
# OpenDocument.Proofs.Package.Finished

A finished package says what its writer says.  `ReadsBack` is what an archive has to do for it: give
back what was written under distinct names, in order and unchanged.  `Kept` joins what a writer
files (`Files`, `Fresh`) with the calls that reached its archive, and every step of a plain or a
protected writer keeps it; a package that was closed is therefore read back entry by entry, and its
manifest as a whole (`Kept.exists_faithful`).  The archives of `Zip.Writer` read back
(`Zip.Writer.readsBack_new`).
-/

namespace OpenDocument

open Archive (Made Traced)
open Zip (Item)
open Zip.Keeping (held)

/-! ## Archives that are read back -/

/-- The archive `a` is read back, if `read` finds in it, after any calls that were all taken and the
last of which finished it, what was written: provided that no path was written twice, and that the
manifest was written last. -/
def ReadsBack {α : Type} [Archive α] (read : α → Option Zip.Directory) (a : α) : Prop :=
  ∀ (cs : List Archive.Call) (items : List Item) (last : Item),
    let t := Archive.performAll (⟨a, []⟩ : Traced α) cs
    t.calls = (items ++ [last]).map Item.taken ++ [Zip.finished] →
    ((items ++ [last]).map Item.path).Nodup → last.path = Vocabulary.manifestPath →
    ∃ d, read t.archive = some d ∧ List.Forall₂ d.Holds (items ++ [last]) d.entries

/-- The path of the manifest is `Zip.Unmistakable`: it is not taken for a locator. -/
theorem unmistakable_manifestPath : Zip.Unmistakable Vocabulary.manifestPath.toUTF8.toList := by
  constructor <;> decide +kernel

namespace Zip.Writer

variable {σ : Type} [Sink σ] [Keeping σ]

/-- The directory that `Directory.ofBytes?` reads in what a complete archive has put into its
sink. -/
def directory? : Writer σ → Option Directory
  | complete sink => Directory.ofBytes? (held sink)
  | _ => none

theorem sound_performAll {sink : σ} (hs : held sink = []) (cs : List Archive.Call) :
    Sound (Archive.performAll (⟨.new sink, []⟩ : Traced (Writer σ)) cs) :=
  Archive.performAll_induction (fun _ c ht => ht.perform c) (sound_new hs) cs

/-- **Archives are read back**, if they were begun in an empty sink. -/
theorem readsBack_new {sink : σ} (hs : held sink = []) : ReadsBack directory? (new sink) := by
  intro cs items last t hcalls _ hlast
  have htaken : ∀ made ∈ t.calls, made.failure = none := by
    rw [hcalls]
    intro made hm
    rcases List.mem_append.mp hm with hm | hm
    · obtain ⟨i, -, rfl⟩ := List.mem_map.mp hm
      rfl
    · rw [List.mem_singleton.mp hm]
      rfl
  have hreflects := sound_performAll hs cs htaken
  rw [hcalls] at hreflects
  obtain ⟨sink', harchive, hheld, hfits, -⟩ := hreflects.exists_complete
  have hname : Unmistakable last.name := by
    rw [Item.name, hlast]
    exact unmistakable_manifestPath
  obtain ⟨d, hd, hholds⟩ := exists_directory List.getLast?_concat hname hfits
  refine ⟨d, ?_, hholds⟩
  rw [harchive, directory?, hheld]
  exact hd

end Zip.Writer

/-! ## Reading the manifest -/

/-- The last entry of its name is the one that `find?` finds. -/
theorem Zip.Directory.find?_of_holds {d : Zip.Directory} {items : List Item} {last : Item}
    (h : List.Forall₂ d.Holds (items ++ [last]) d.entries) :
    ∃ e, d.find? last.name = some e ∧ d.Holds last e := by
  have hreverse := List.forall₂_reverse_iff.mpr h
  rw [List.reverse_append, List.reverse_singleton, List.singleton_append] at hreverse
  cases hentries : d.entries.reverse with
  | nil => rw [hentries] at hreverse; cases hreverse
  | cons e es =>
      rw [hentries] at hreverse
      have hlast := (List.forall₂_cons.mp hreverse).1
      refine ⟨e, ?_, hlast⟩
      rw [find?, hentries]
      exact List.find?_cons_of_pos (beq_iff_eq.mpr hlast.name)

/-- **A manifest is read back from its archive** by `ofArchive`, whatever stands in front of it. -/
theorem Manifest.ofArchive_of_holds {d : Zip.Directory} {m : Manifest} {items : List Item}
    (h : List.Forall₂ d.Holds (items ++ [manifestItem m]) d.entries)
    (hm : ∀ e ∈ m.entries, e.path ≠ "/") : ofArchive d = .ok m := by
  obtain ⟨e, hfind, hlast⟩ := Zip.Directory.find?_of_holds h
  have hname : d.find? Vocabulary.manifestPath.toUTF8.toList = some e := hfind
  have hdata : (manifestItem m).data = m.toXml.toUTF8.toList := rfl
  obtain ⟨method, packed, hopen, hdocument⟩ := hlast.exists_unpackText hdata
  simp only [ofArchive, hname, Option.bind_some, hopen, Option.map_some, hdocument]
  exact parse_toXml hm

/-! ## Reading the package -/

/-- A directory that says what a writer says.  Its entries are the media type, then the files that
were added, one for each entry of the manifest and under its path, and at last the manifest; no
name is there twice, and the manifest is read from it. -/
structure Faithful (k : Option Cipher.RoundKeys) (mediaType : String) (m : Manifest)
    (as : List Addition) (d : Zip.Directory) : Prop where
  mediaType_eq : m.mediaType = mediaType
  listed : ∃ filings : List Filing, filings.map Filing.addition = as
    ∧ filings.map Filing.entry = m.entries ∧ (∀ f ∈ filings, f.Valid k)
    ∧ List.Forall₂ d.Holds (packageItems filings m) d.entries
  nodup : (d.entries.map Zip.Entry.name).Nodup
  read : Manifest.ofArchive d = .ok m

/-- The names of a directory are those of the items that it `Holds`. -/
theorem Zip.Directory.names_of_holds {d : Zip.Directory} {items : List Item}
    {entries : List Zip.Entry} (h : List.Forall₂ d.Holds items entries) :
    entries.map Zip.Entry.name = items.map Item.name := by
  induction h with
  | nil => rfl
  | cons hholds _ ih => rw [List.map_cons, List.map_cons, hholds.name, ih]

/-- Items with distinct paths have distinct names, since `toUTF8` is injective. -/
theorem Zip.nodup_names {items : List Item} (h : (items.map Item.path).Nodup) :
    (items.map Item.name).Nodup := by
  have hinjective : Function.Injective fun path : String => path.toUTF8.toList := by
    intro path path' heq
    have htext := congrArg (fun bs : Bytes => String.fromUTF8? bs.toByteArray) heq
    simp only [fromUTF8?_toUTF8] at htext
    exact Option.some.inj htext
  have hmap := h.map hinjective
  rwa [List.map_map] at hmap

/-- The `packageItems` of `Fresh` files have distinct paths. -/
theorem nodup_packageItems {k : Option Cipher.RoundKeys} {m : Manifest} {filings : List Filing}
    {written : List String} (hv : ∀ f ∈ filings, f.Valid k)
    (h : Fresh (filings.map Filing.addition) written) :
    ((packageItems filings m).map Item.path).Nodup := by
  have hpaths : filings.map (Item.path ∘ Filing.item)
      = (filings.map Filing.addition).map Addition.path := by
    rw [List.map_map]
    exact List.map_congr_left fun f hf => (hv f hf).paths.2
  -- the two paths that writers use themselves are refused when files are added
  have hne : ∀ path ∈ (filings.map Filing.addition).map Addition.path,
      path ≠ Vocabulary.mimetypePath ∧ path ≠ Vocabulary.manifestPath := by
    intro path hp
    obtain ⟨a, ha, rfl⟩ := List.mem_map.mp hp
    exact ⟨(h.usable a ha).ne_mimetype, (h.usable a ha).ne_manifest⟩
  rw [packageItems, List.map_append, List.map_cons, List.map_map, hpaths, List.nodup_append]
  refine ⟨List.nodup_cons.mpr ⟨fun hm => (hne _ hm).1 rfl, h.nodup⟩, List.nodup_singleton _, ?_⟩
  intro path hp path' hp'
  rw [List.map_singleton, List.mem_singleton] at hp'
  rcases List.mem_cons.mp hp with rfl | hp
  · rw [hp']
    exact (by decide : Vocabulary.mimetypePath ≠ Vocabulary.manifestPath)
  · rw [hp']
    exact (hne path hp).2

section

variable {α : Type} [Archive α] {a : α} {k : Option Cipher.RoundKeys} {mediaType : String}
  {as : List Addition} {m : Manifest} {written : List String} {t : Traced α} {closed : Bool}

/-- What a writer keeps together with its archive, begun as `a`: it keeps `Files` under `Fresh`
paths, and the archive was reached by calls. -/
structure Kept (a : α) (k : Option Cipher.RoundKeys) (mediaType : String) (as : List Addition)
    (m : Manifest) (written : List String) (t : Traced α) (closed : Bool) : Prop where
  files : Files k mediaType as m t.calls closed
  fresh : Fresh as written
  reached : ∃ cs, Archive.performAll ⟨a, []⟩ cs = t

/-- A call reaches one state more of an archive. -/
theorem Archive.exists_performAll {t₀ : Traced α} (t : Traced α) (c : Archive.Call)
    (h : ∃ cs, Archive.performAll t₀ cs = t) :
    ∃ cs, Archive.performAll t₀ cs = (Archive.perform t c).2 := by
  obtain ⟨cs, rfl⟩ := h
  exact ⟨cs ++ [c], Archive.performAll_concat t₀ cs c⟩

/-- A package is begun, and `Kept` with nothing in it. -/
theorem Kept.opened (k : Option Cipher.RoundKeys)
    (h : Archive.writeEntry (⟨a, []⟩ : Traced α) Vocabulary.mimetypePath
      mediaType.toUTF8.toList .stored = (.ok (), t)) :
    Kept a k mediaType [] { mediaType } [] t false where
  files := by
    rw [Traced.calls_of_writeEntry h]
    exact .opened k mediaType
  fresh := .nil
  reached := Archive.of_perform (c := .write _ _ _) Archive.exists_performAll ⟨[], rfl⟩ h

/-- As long as every call was taken, what is `Kept` is `Filed`, and under distinct paths. -/
theorem Kept.exists_filed (h : Kept a k mediaType as m written t closed)
    (hall : ∀ made ∈ t.calls, made.failure = none) :
    ∃ filings, Filed k mediaType as m t.calls closed filings
      ∧ ((packageItems filings m).map Item.path).Nodup := by
  obtain ⟨filings, hfiled⟩ := h.files hall
  have hfresh := h.fresh
  rw [← hfiled.additions] at hfresh
  exact ⟨filings, hfiled, nodup_packageItems hfiled.valid hfresh⟩

/-- **A closed package is read back**, from an archive that `ReadsBack`. -/
theorem Kept.exists_faithful (h : Kept a k mediaType as m written t true)
    {read : α → Option Zip.Directory} (hr : ReadsBack read a)
    (hall : ∀ made ∈ t.calls, made.failure = none) :
    ∃ d, read t.archive = some d ∧ Faithful k mediaType m as d := by
  obtain ⟨cs, rfl⟩ := h.reached
  obtain ⟨filings, hfiled, hnodup⟩ := h.exists_filed hall
  have hcalls : (Archive.performAll (⟨a, []⟩ : Traced α) cs).calls
      = (packageItems filings m).map Item.taken ++ [Zip.finished] := by
    rw [hfiled.calls, packageItems, hfiled.mediaType_eq]
    simp
  obtain ⟨d, hd, hholds⟩ := hr cs _ (manifestItem m) hcalls hnodup rfl
  -- no path that passed the check is that of the package itself
  have hroot : ∀ e ∈ m.entries, e.path ≠ "/" := by
    rw [← hfiled.entries]
    intro e he hpath
    obtain ⟨f, hf, rfl⟩ := List.mem_map.mp he
    have hadded : f.addition ∈ as := by
      rw [← hfiled.additions]
      exact List.mem_map_of_mem hf
    apply (h.fresh.usable f.addition hadded).relative
    rw [← (hfiled.valid f hf).paths.1, hpath]
    decide
  refine ⟨d, hd, hfiled.mediaType_eq,
    ⟨filings, hfiled.additions, hfiled.entries, hfiled.valid, hholds⟩, ?_,
    Manifest.ofArchive_of_holds hholds hroot⟩
  rw [Zip.Directory.names_of_holds hholds]
  exact Zip.nodup_names hnodup

/-! ## Runs -/

namespace PlainWriter

/-- A plain writer that was begun by `create` keeps its package together. -/
theorem kept_replay {w : PlainWriter (Traced α)} (h : create ⟨a, []⟩ mediaType = .ok w)
    (qs : List Request) :
    Kept a none mediaType (additions Request.addition? qs (replay serve w qs).1)
      (replay serve w qs).2.manifest (replay serve w qs).2.written (replay serve w qs).2.archive
      (replay serve w qs).2.closed := by
  have hopened : Kept a none mediaType [] w.manifest w.written w.archive w.closed := by
    obtain ⟨archive, ha, rfl⟩ := exists_of_create h
    exact .opened none ha
  refine replay_additions (P := fun as (w : PlainWriter (Traced α)) =>
    Kept a none mediaType as w.manifest w.written w.archive w.closed) Request.addition? ?_ hopened
    qs
  intro as w q hk
  have hstep := step_serve w q
  exact ⟨hstep.files hk.files, hstep.fresh hk.fresh,
    hstep.archive_induction Archive.exists_performAll hk.reached⟩

/-- A plain writer is `closed` at the end of a run in which `close` has succeeded. -/
theorem closed_replay {w : PlainWriter α} {qs : List Request}
    (h : (.close, .ok ()) ∈ qs.zip (replay serve w qs).1) :
    (replay serve w qs).2.closed = true := by
  refine replay_reaches (P := fun w => w.closed = true) ?_ ?_ h
  · intro w hr
    have hstep := step_serve w .close
    rw [hr] at hstep
    generalize (w.serve .close).2 = w' at hstep
    cases hstep
    rfl
  · intro w q hc
    have hstep := step_serve w q
    generalize (w.serve q).1 = result, (w.serve q).2 = w' at hstep
    cases hstep with
    | refused => exact hc
    | rejected hn | lost hn | added hn | manifestLost hn | closed hn => cases hc.symm.trans hn

end PlainWriter

namespace ProtectedWriter

variable {ρ : Type} [RandomSource ρ]

/-- A protected writer that was `Opened` keeps its package together. -/
theorem kept_replay {parameters : Parameters} {random : ρ} {w : ProtectedWriter (Traced α) ρ}
    (h : Opened mediaType parameters ⟨a, []⟩ random w) (qs : List Request) :
    Kept a (some (.ofKey parameters.keySize w.key.bytes)) mediaType
      (additions Request.addition? qs (replay serve w qs).1)
      (replay serve w qs).2.manifest (replay serve w qs).2.written (replay serve w qs).2.archive
      (replay serve w qs).2.isClosed := by
  have hopened : Kept a (some (.ofKey parameters.keySize w.key.bytes)) mediaType [] w.manifest
      w.written w.archive w.isClosed := by
    obtain ⟨digest, salt, random', key, archive, -, ha, rfl⟩ := h.exists_eq
    exact .opened _ ha
  -- an entry is filed under the key it was encrypted with, so the key is carried along
  refine (replay_additions (P := fun as (w' : ProtectedWriter (Traced α) ρ) =>
    Kept a (some (.ofKey parameters.keySize w.key.bytes)) mediaType as w'.manifest w'.written
      w'.archive w'.isClosed ∧ w'.key = w.key) Request.addition? ?_ ⟨hopened, rfl⟩ qs).1
  rintro as w' q ⟨hk, hkey⟩
  have hstep := step_serve w' q
  have hkeys : Cipher.RoundKeys.ofBytes? w'.key.bytes
      = some (.ofKey parameters.keySize w.key.bytes) := by
    rw [hkey]
    exact h.roundKeys
  exact ⟨⟨hstep.files hkeys hk.files, hstep.fresh hk.fresh,
    hstep.archive_induction Archive.exists_performAll hk.reached⟩, hstep.frame.1.trans hkey⟩

/-- A protected writer `isClosed` at the end of a run in which `close` has succeeded. -/
theorem isClosed_replay {w : ProtectedWriter α ρ} {qs : List Request}
    (h : (.close, .ok ()) ∈ qs.zip (replay serve w qs).1) :
    (replay serve w qs).2.isClosed = true := by
  refine replay_reaches (P := fun w => w.isClosed = true) ?_ ?_ h
  · intro w hr
    have hstep := step_serve w .close
    rw [hr] at hstep
    generalize (w.serve .close).2 = w' at hstep
    cases hstep
    rfl
  · intro w q hc
    have hphase : w.phase ≠ .writing := by
      rw [beq_iff_eq.mp hc]
      exact Phase.noConfusion
    rw [((step_serve w q).eq_of_phase_ne hphase).1]
    exact hc

end ProtectedWriter

end

/-- Runs of a plain or a protected writer on an archive, begun as `a`, in which a call of close
succeeded: with the key of the writer, if it has one, its manifest, what was added, and its archive
with the log, all at the end of the run. -/
inductive Finished {α : Type} [Archive α] (a : α) (mediaType : String) :
    Option Cipher.RoundKeys → Manifest → List Addition → Traced α → Prop
  | ofPlain {w : PlainWriter (Traced α)} {qs : List PlainWriter.Request}
      (h : PlainWriter.create ⟨a, []⟩ mediaType = .ok w)
      (hc : (.close, .ok ()) ∈ qs.zip (replay PlainWriter.serve w qs).1) :
      Finished a mediaType none (replay PlainWriter.serve w qs).2.manifest
        (additions PlainWriter.Request.addition? qs (replay PlainWriter.serve w qs).1)
        (replay PlainWriter.serve w qs).2.archive
  | ofProtected {ρ : Type} [RandomSource ρ] {random : ρ} {parameters : Parameters}
      {w : ProtectedWriter (Traced α) ρ} {qs : List ProtectedWriter.Request}
      (h : ProtectedWriter.Opened mediaType parameters ⟨a, []⟩ random w)
      (hc : (.close, .ok ()) ∈ qs.zip (replay ProtectedWriter.serve w qs).1) :
      Finished a mediaType (some (.ofKey parameters.keySize w.key.bytes))
        (replay ProtectedWriter.serve w qs).2.manifest
        (additions ProtectedWriter.Request.addition? qs (replay ProtectedWriter.serve w qs).1)
        (replay ProtectedWriter.serve w qs).2.archive

/-- What is `Kept` together is closed at the end of such a run. -/
theorem Finished.exists_kept {α : Type} [Archive α] {a : α} {mediaType : String}
    {k : Option Cipher.RoundKeys} {m : Manifest} {as : List Addition} {t : Traced α}
    (h : Finished a mediaType k m as t) : ∃ written, Kept a k mediaType as m written t true := by
  cases h with
  | @ofPlain w qs h hc =>
      have hkept := PlainWriter.kept_replay h qs
      rw [PlainWriter.closed_replay hc] at hkept
      exact ⟨_, hkept⟩
  | @ofProtected ρ _ random parameters w qs h hc =>
      have hkept := ProtectedWriter.kept_replay h qs
      rw [ProtectedWriter.isClosed_replay hc] at hkept
      exact ⟨_, hkept⟩

/-! ## Closing -/

namespace ProtectedWriter

variable {σ ρ : Type} [Sink σ] [Zip.Keeping σ] [Zip.Obliging σ] [RandomSource ρ]
  {w : ProtectedWriter (Traced (Zip.Writer σ)) ρ}

/-- A package is closed, if its archive has room for the manifest and the directory (`Zip.Fits`). -/
theorem exists_close {items : List Item}
    (h : Zip.Writer.Reflects (items.map Item.taken) w.archive.archive) (hw : w.phase = .writing)
    (hf : Zip.Fits (items ++ [manifestItem w.manifest]))
    (hn : ((items ++ [manifestItem w.manifest]).map Item.name).Nodup) :
    ∃ w', w.serve .close = (.ok (), w')
      ∧ w'.archive.calls = w.archive.calls ++ [(manifestItem w.manifest).taken, Zip.finished] := by
  let manifest : Archive.Call := .write (manifestItem w.manifest).path
    (manifestItem w.manifest).data (manifestItem w.manifest).method
  have hnew : (manifestItem w.manifest).name ∉ items.map Item.name := by
    rw [List.map_append, List.nodup_append] at hn
    exact fun hm => hn.2.2 _ hm _ (List.mem_singleton_self _) rfl
  obtain ⟨a₁, ha₁⟩ := h.exists_write (hf.item _ List.mem_concat_self) hnew
  have hmanifest := Traced.perform_of_eq (c := manifest) ha₁
  have hreflects :
      Zip.Writer.Reflects ((items ++ [manifestItem w.manifest]).map Item.taken) a₁ := by
    rw [List.map_append]
    exact h.perform (c := manifest) ha₁
  obtain ⟨a₂, ha₂⟩ := hreflects.exists_finish hf
  have hfinish := Traced.perform_of_eq (t := ⟨a₁, w.archive.calls ++ [⟨manifest, none⟩]⟩)
    (c := .finish) ha₂
  refine ⟨_, (Step.closed hw hmanifest hfinish).serve_eq, ?_⟩
  exact List.append_assoc ..

/-- **A package can be closed as long as there is room** for its files and its manifest. -/
theorem finished_of_roomy {sink : σ} (hs : held sink = []) {mediaType : String}
    {parameters : Parameters} {random : ρ}
    (ho : Opened mediaType parameters ⟨.new sink, []⟩ random w) {qs : List Request}
    (hw : (replay serve w qs).2.phase = .writing)
    (hall : ∀ made ∈ (replay serve w qs).2.archive.calls, made.failure = none)
    (hr : Zip.Roomy (Zip.takenItems (replay serve w qs).2.archive.calls
      ++ [manifestItem (replay serve w qs).2.manifest])) :
    (.close, .ok ()) ∈ (qs ++ [Request.close]).zip (replay serve w (qs ++ [Request.close])).1
      ∧ ∀ made ∈ (replay serve w (qs ++ [Request.close])).2.archive.calls, made.failure = none := by
  have hkept := kept_replay ho qs
  have hlength : (replay serve w qs).1.length = qs.length := length_replay w qs
  rw [replay_concat]
  -- from here on only what the run has kept counts
  generalize (replay serve w qs).2 = v, (replay serve w qs).1 = results at *
  obtain ⟨filings, hfiled, hnodup⟩ := hkept.exists_filed hall
  obtain ⟨cs, hcs⟩ := hkept.reached
  have hopen : v.isClosed = false := by
    rw [isClosed, hw]
    rfl
  have hcalls : v.archive.calls
      = (mimetypeItem mediaType :: filings.map Filing.item).map Item.taken := by
    rw [hfiled.calls, hopen]
    exact List.append_nil _
  have hreflects : Zip.Writer.Reflects v.archive.calls v.archive.archive := by
    have hsound := Zip.Writer.sound_performAll hs cs
    rw [hcs] at hsound
    exact hsound hall
  rw [packageItems, hfiled.mediaType_eq] at hnodup
  rw [hcalls, Zip.takenItems_map_taken] at hr
  rw [hcalls] at hreflects
  obtain ⟨v', hv, hclosed⟩ := exists_close hreflects hw hr.fits (Zip.nodup_names hnodup)
  rw [hv, List.zip_append hlength.symm]
  refine ⟨List.mem_append_right _ (List.mem_singleton_self _), ?_⟩
  intro made hm
  rw [hclosed] at hm
  rcases List.mem_append.mp hm with hm | hm
  · exact hall made hm
  · simp only [List.mem_cons, List.not_mem_nil, or_false] at hm
    rcases hm with rfl | rfl <;> rfl

end ProtectedWriter

/-! ## Finished packages -/

/-- Files of which one is encrypted, one is clear, and one is refused. -/
def someFiles : List ProtectedWriter.Request :=
  [.write "a" "x" [1, 2] true, .write "b" "y" [3] false, .write "a" "z" [] true]

/-- A package with `someFiles` is closed in memory. -/
theorem ProtectedWriter.exists_closed_memory :
    ∃ w, Opened "text" .least (⟨.new {}, []⟩ : Traced (Zip.Writer Memory)) (⟨0⟩ : Counter) w
      ∧ (.close, .ok ()) ∈ (someFiles ++ [Request.close]).zip
          (replay serve w (someFiles ++ [.close])).1
      ∧ (∀ made ∈ (replay serve w (someFiles ++ [.close])).2.archive.calls, made.failure = none)
      ∧ additions Request.addition? (someFiles ++ [Request.close])
          (replay serve w (someFiles ++ [.close])).1
        = [⟨"a", "x", [1, 2], true⟩, ⟨"b", "y", [3], false⟩] := by
  obtain ⟨w, hw, hready⟩ := exists_eq_ok_of_any (x := (openWithPassword "text" .least
    (⟨.new {}, []⟩ : Traced (Zip.Writer Memory)) (⟨0⟩ : Counter) [112]).1) (p := fun w =>
      let v := (replay serve w someFiles).2
      additions Request.addition? someFiles (replay serve w someFiles).1
          == [⟨"a", "x", [1, 2], true⟩, ⟨"b", "y", [3], false⟩]
        && v.phase == .writing && decide (∀ made ∈ v.archive.calls, made.failure = none)
        && decide (Zip.Roomy (Zip.takenItems v.archive.calls ++ [manifestItem v.manifest])))
    (by decide +kernel)
  simp only [Bool.and_eq_true, decide_eq_true_eq, beq_iff_eq] at hready
  obtain ⟨⟨⟨hadditions, hphase⟩, hall⟩, hroomy⟩ := hready
  have hopened := Opened.withPassword hw
  obtain ⟨hclose, hcalls⟩ := finished_of_roomy rfl hopened hphase hall hroomy
  refine ⟨w, hopened, hclose, hcalls, ?_⟩
  rw [replay_concat, additions_concat _ (length_replay w someFiles).symm, hadditions,
    addedBy_close, List.append_nil]

end OpenDocument
