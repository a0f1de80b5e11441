import OpenDocument.Package.Parts
import OpenDocument.Proofs.Package.Run
import OpenDocument.Proofs.Protection.Disclosure

/-!
# OpenDocument.Proofs.Protection.Substitution

A protected writer in place of a plain one.  Both are given the same tasks, over archives that
refuse nothing and with a source that never fails; `StandsIn` relates their states and is kept by
every task.  The two writers keep their states in different ways, one flag against three phases,
and update them in different orders, so the step lemmas follow the protected writer through its
`Step` and name the step of the plain one that answers it.
-/

namespace OpenDocument

open Archive (Made Traced AcceptsAll)

/-! ## Tasks -/

/-- What a package writer is given to do: one file, the `Parts` of a document, or the end of the
package. -/
inductive Task where
  /-- Add a file; a protected writer encrypts it or leaves it in the clear. -/
  | add (path mediaType : String) (content : Bytes) (encrypt : Bool)
  /-- Write the parts of a document, as a package writer. -/
  | document (parts : Parts)
  | close

/-- Whether nothing is to be encrypted: the parts of a `document` always are, a file by `add` if
that is asked for. -/
def Task.inClear : Task → Bool
  | .add _ _ _ encrypt => !encrypt
  | .document _ => false
  | .close => true

/-- What a plain writer answers to a task, and the writer after it. -/
def PlainWriter.work {α : Type} [Archive α] (w : PlainWriter α) :
    Task → Except Error Unit × PlainWriter α
  | .add path mediaType content _ => w.add path mediaType content
  | .document parts => parts.write w
  | .close => w.close

/-- What a protected writer answers to a task, and the writer after it. -/
def ProtectedWriter.work {α ρ : Type} [Archive α] [RandomSource ρ] (w : ProtectedWriter α ρ) :
    Task → Except Error Unit × ProtectedWriter α ρ
  | .add path mediaType content encrypt => w.writeEntry path mediaType content encrypt
  | .document parts => parts.write w
  | .close => w.close

/-! ## What is compared -/

/-- The path that a call puts something under, if it is a `write`. -/
def Archive.Made.path? : Made → Option String
  | ⟨.write path _ _, _⟩ => some path
  | ⟨.finish, _⟩ => none

/-- The entry without what only encrypted entries have, as `Entry.clear` makes it. -/
def Entry.erase (e : Entry) : Entry :=
  if e.isEncrypted then Entry.clear e.path e.mediaType else e

/-- The manifest with `Entry.erase` done to every entry. -/
def Manifest.erase (m : Manifest) : Manifest :=
  { m with entries := m.entries.map Entry.erase }

theorem Manifest.erase_push (m : Manifest) (e : Entry) :
    (m.push e).erase = m.erase.push e.erase := by
  simp only [erase, push, List.map_append, List.map_cons, List.map_nil]

@[simp] theorem Entry.erase_clear (path mediaType : String) :
    (Entry.clear path mediaType).erase = Entry.clear path mediaType := rfl

theorem Ledger.erase_entry (l : Ledger) (r : Record) :
    (l.entry r).erase = Entry.clear r.path r.mediaType := rfl

/-! ## Sources that never fail -/

section

variable {ρ : Type} [RandomSource ρ]

/-- A source after byte strings of these lengths were drawn from it by `fill`. -/
def drain (random : ρ) (lengths : List Nat) : ρ :=
  lengths.foldl (fun random n => (RandomSource.fill random n).2) random

/-- A source whose `fill` gives whatever is asked for, however much was drawn before (`drain`). -/
def Steady (random : ρ) : Prop :=
  ∀ lengths n, ((RandomSource.fill (drain random lengths) n).1).isOk = true

theorem Steady.fill {random : ρ} (h : Steady random) (n : Nat) :
    ∃ bytes random', RandomSource.fill random n = (.ok bytes, random') ∧ Steady random' := by
  obtain ⟨bytes, hb⟩ := exists_eq_ok_of_isOk (h [] n)
  refine ⟨bytes, _, Prod.ext hb rfl, fun lengths m => ?_⟩
  exact h (n :: lengths) m

theorem Steady.drawPair {random : ρ} (h : Steady random) (n : Nat) :
    ∃ p random', drawPair n random = (.ok p, random') ∧ Steady random' := by
  obtain ⟨vector, random₁, hv, h₁⟩ := h.fill Parameters.vectorSize
  obtain ⟨filler, random₂, hf, h₂⟩ := h₁.fill n
  exact ⟨⟨vector.val, filler.val⟩, random₂, by simp only [OpenDocument.drawPair, hv, hf], h₂⟩

/-- A search by `drawFresh` in a `Steady` source finds a pair, or gives up for want of a fresh
vector. -/
theorem Steady.drawFresh {random : ρ} (h : Steady random) (used : List Bytes) (n attempts : Nat) :
    Steady (drawFresh used n attempts random).2
      ∧ ∀ e, (drawFresh used n attempts random).1 = .error e →
        e = .random (.noFreshVector ProtectedWriter.maxAttempts) := by
  induction attempts generalizing random with
  | zero => exact ⟨h, fun e he => by cases he; rfl⟩
  | succ attempts ih =>
      obtain ⟨p, random', hp, h'⟩ := h.drawPair n
      unfold OpenDocument.drawFresh
      cases hu : used.contains p.vector with
      | true =>
          simp only [hp, hu, if_true]
          exact ih h'
      | false =>
          simp only [hp, hu, Bool.false_eq_true, if_false]
          exact ⟨h', fun e he => by cases he⟩

end

namespace ProtectedWriter

variable {α β ρ : Type} [Archive α] [Archive β] [RandomSource ρ]

/-! ## The two writers side by side -/

/-- A plain writer and a protected one that were given the same tasks.  If `exact` holds, nothing
was encrypted, and the two agree in everything. -/
structure StandsIn (exact : Prop) (w : PlainWriter (Traced α)) (v : ProtectedWriter (Traced β) ρ) :
    Prop where
  accepts : AcceptsAll w.archive.archive
  accepts' : AcceptsAll v.archive.archive
  steady : Steady v.random
  fits : ∃ k, Cipher.RoundKeys.ofBytes? v.key.bytes = some k
  paths : w.archive.calls.map Made.path? = v.archive.calls.map Made.path?
  manifest : v.manifest.erase = w.manifest
  written : w.written = v.written
  phase : v.phase = if w.closed then .closed else .writing
  same : exact → w.archive.calls = v.archive.calls ∧ v.manifest = w.manifest

/-- The one answer that a protected writer gives and a plain one does not,
`RandomFault.noFreshVector`. -/
def unfresh : Except Error Unit :=
  .error (.random (.noFreshVector maxAttempts))

namespace StandsIn

variable {exact : Prop} {w : PlainWriter (Traced α)} {v v' : ProtectedWriter (Traced β) ρ}

/-- A plain writer that a protected one `StandsIn` for is closed whenever the other gives a
`refusal?`. -/
theorem closed_of_refusal? (h : StandsIn exact w v) {e : Error}
    (hr : v.refusal? = some e) : w.closed = true ∧ e = .writerClosed := by
  rw [refusal?, h.phase] at hr
  cases hc : w.closed with
  | true => rw [hc] at hr; cases hr; exact ⟨rfl, rfl⟩
  | false => rw [hc] at hr; cases hr

theorem not_closed (h : StandsIn exact w v) (hw : v.phase = .writing) : w.closed = false := by
  rw [h.phase] at hw
  cases hc : w.closed with
  | true => rw [hc] at hw; cases hw
  | false => rfl

/-- With a `Steady` source, `encryptContent` fails for want of a fresh vector only. -/
theorem encryptContent_cases (h : StandsIn exact w v) (content : Bytes) :
    Steady (v.encryptContent content).2
      ∧ ∀ e, (v.encryptContent content).1 = .error e →
        e = .random (.noFreshVector maxAttempts) := by
  obtain ⟨k, hk⟩ := h.fits
  obtain ⟨hs, he⟩ := h.steady.drawFresh v.vectors (fillerLength (Deflate.compress content))
    maxAttempts
  rw [encryptContent, encryptFresh_eq_drawFresh hk]
  refine ⟨hs, fun e hm => he e ?_⟩
  cases hd : (OpenDocument.drawFresh v.vectors (fillerLength (Deflate.compress content))
      maxAttempts v.random).1 with
  | error e' => rw [hd] at hm; cases hm; rfl
  | ok p => rw [hd] at hm; cases hm

/-- Every call that a protected writer makes on its archive is taken. -/
theorem not_lost (h : StandsIn exact w v) {c : Archive.Call} {e : Error} {archive : Traced β}
    (ha : Archive.perform v.archive c = (.error e, archive)) : False := by
  obtain ⟨t, ht, -⟩ := h.accepts'.exists_traced c
  cases ha.symm.trans ht

/-- Adding a file keeps `StandsIn` between the writers. -/
theorem add (h : StandsIn exact w v) {path mediaType : String} {content : Bytes} {encrypt : Bool}
    (hx : exact → encrypt = false)
    {result : Except Error Unit} (hs : Step v (.write path mediaType content encrypt) result v')
    (hf : result ≠ unfresh) :
    ∃ w', PlainWriter.Step w (.add path mediaType content) result w' ∧ StandsIn exact w' v' := by
  have checked : ∀ {r : Except Error Unit}, checkPath v.written path = r →
      checkPath w.written path = r := fun hp => h.written ▸ hp
  obtain ⟨t, ht, hacc, hcalls⟩ := h.accepts.exists_traced (.write path content .deflated)
  cases hs with
  | refused hr =>
      obtain ⟨hc, rfl⟩ := h.closed_of_refusal? hr
      exact ⟨w, .refused hc, h⟩
  | rejected hw hp => exact ⟨w, .rejected (h.not_closed hw) (checked hp), h⟩
  | unencrypted hw hp he =>
      have hfresh := (h.encryptContent_cases content).2 _ (congrArg Prod.fst he)
      rw [hfresh] at hf
      exact absurd rfl hf
  | encryptedLost hw hp he ha => exact (h.not_lost (c := .write _ _ _) ha).elim
  | clearLost hw hp ha => exact (h.not_lost (c := .write _ _ _) ha).elim
  | @encrypted _ _ _ entry random archive ledger hw hp he ha hl =>
      obtain ⟨t', ht', hacc', hcalls'⟩ :=
        h.accepts'.exists_traced (.write path entry.ciphertext .stored)
      cases ha.symm.trans ht'
      have hsteady := (h.encryptContent_cases content).1
      rw [he] at hsteady
      refine ⟨_, .added (h.not_closed hw) (checked hp) ht, ?_⟩
      exact { h with
        accepts := hacc, accepts' := hacc', steady := hsteady
        paths := by
          simp only [hcalls, hcalls', List.map_append, h.paths, List.map_cons, List.map_nil,
            Made.path?]
        manifest := by
          rw [ProtectedWriter.manifest, eq_of_record hl]
          simp only [Manifest.erase_push, Ledger.erase_entry]
          exact congrArg (fun m : Manifest => m.push (.clear path mediaType)) h.manifest
        written := by rw [h.written]
        same := fun he => absurd (hx he) (by decide) }
  | @clear _ _ _ archive hw hp ha =>
      obtain ⟨t', ht', hacc', hcalls'⟩ := h.accepts'.exists_traced (.write path content .deflated)
      cases ha.symm.trans ht'
      refine ⟨_, .added (h.not_closed hw) (checked hp) ht, ?_⟩
      exact { h with
        accepts := hacc, accepts' := hacc'
        paths := by
          simp only [hcalls, hcalls', List.map_append, h.paths]
        manifest := by
          rw [ProtectedWriter.manifest, Ledger.addClear]
          simp only [Manifest.erase_push, Entry.erase_clear]
          exact congrArg (fun m : Manifest => m.push (.clear path mediaType)) h.manifest
        written := by rw [h.written]
        same := fun he => by
          obtain ⟨hc, hm⟩ := h.same he
          refine ⟨by rw [hcalls, hcalls', hc], ?_⟩
          exact congrArg (fun m : Manifest => m.push (.clear path mediaType)) hm }

/-- Closing keeps `StandsIn` between the writers. -/
theorem close (h : StandsIn exact w v) {result : Except Error Unit} (hs : Step v .close result v') :
    ∃ w', PlainWriter.Step w .close result w' ∧ StandsIn exact w' v' := by
  obtain ⟨t, ht, hacc, hcalls⟩ := h.accepts.exists_traced
    (.write Vocabulary.manifestPath w.manifest.toXml.toUTF8.toList .deflated)
  obtain ⟨u, hu, hacc₂, hcalls₂⟩ := hacc.exists_traced .finish
  obtain ⟨t', ht', hacc', hcalls'⟩ := h.accepts'.exists_traced
    (.write Vocabulary.manifestPath v.ledger.toXml.toUTF8.toList .deflated)
  obtain ⟨u', hu', hacc₂', hcalls₂'⟩ := hacc'.exists_traced .finish
  cases hs with
  | refused hr =>
      obtain ⟨hc, rfl⟩ := h.closed_of_refusal? hr
      exact ⟨w, .refused hc, h⟩
  | manifestLost hw ha => cases ha.symm.trans ht'
  | unfinished hw ha hf =>
      cases ha.symm.trans ht'
      cases hf.symm.trans hu'
  | closed hw ha hf =>
      cases ha.symm.trans ht'
      cases hf.symm.trans hu'
      refine ⟨_, .closed (h.not_closed hw) ht hu, ?_⟩
      exact { h with
        accepts := hacc₂, accepts' := hacc₂', phase := rfl
        paths := by
          simp only [hcalls₂, hcalls, hcalls₂', hcalls', List.map_append, h.paths, List.map_cons,
            List.map_nil, Made.path?]
        same := fun he => by
          obtain ⟨hc, hm⟩ := h.same he
          refine ⟨?_, hm⟩
          rw [hcalls₂, hcalls, hcalls₂', hcalls', hc, Ledger.toXml,
            show v.ledger.manifest = w.manifest from hm] }

/-- `PlainWriter.add` and `writeEntry` answer alike. -/
theorem add_eq (h : StandsIn exact w v) (path mediaType : String) (content : Bytes)
    (encrypt : Bool) (hx : exact → encrypt = false)
    (hf : (v.writeEntry path mediaType content encrypt).1 ≠ unfresh) :
    (w.add path mediaType content).1 = (v.writeEntry path mediaType content encrypt).1
      ∧ StandsIn exact (w.add path mediaType content).2
          (v.writeEntry path mediaType content encrypt).2 := by
  obtain ⟨w', hs, hw⟩ := h.add hx (step_serve v (.write path mediaType content encrypt)) hf
  have he : w.add path mediaType content = _ := hs.serve_eq
  rw [he]
  exact ⟨rfl, hw⟩

/-- `writeFiles` answers alike for both writers, up to the first file that is refused. -/
theorem writeFiles_eq (h : StandsIn exact w v) (hx : ¬exact) (files : List (String × String))
    (hf : (writeFiles v files).1 ≠ unfresh) :
    (writeFiles w files).1 = (writeFiles v files).1
      ∧ StandsIn exact (writeFiles w files).2 (writeFiles v files).2 := by
  induction files generalizing w v with
  | nil => exact ⟨rfl, h⟩
  | cons file files ih =>
      obtain ⟨path, text⟩ := file
      have hadd := h.add_eq path Vocabulary.markupMediaType text.toUTF8.toList true
        fun he => absurd he hx
      simp only [writeFiles, PackageWriter.add] at hf ⊢
      cases hv : v.writeEntry path Vocabulary.markupMediaType text.toUTF8.toList true with
      | mk result v' =>
          cases hw : w.add path Vocabulary.markupMediaType text.toUTF8.toList with
          | mk result' w' =>
              rw [hv, hw] at hadd
              rw [hv] at hf
              cases result with
              | error e =>
                  obtain ⟨rfl, h'⟩ := hadd hf
                  exact ⟨rfl, h'⟩
              | ok u =>
                  obtain ⟨rfl, h'⟩ := hadd (by simp [unfresh])
                  exact ih h' hf

/-- Every `Task` is answered alike by `PlainWriter.work` and `ProtectedWriter.work`. -/
theorem work_eq (h : StandsIn exact w v) {q : Task} (hx : exact → q.inClear = true)
    (hf : (v.work q).1 ≠ unfresh) :
    (w.work q).1 = (v.work q).1 ∧ StandsIn exact (w.work q).2 (v.work q).2 := by
  cases q with
  | add path mediaType content encrypt =>
      exact h.add_eq path mediaType content encrypt (fun he => by simpa [Task.inClear] using hx he)
        hf
  | document parts =>
      exact h.writeFiles_eq (fun he => by cases hx he) parts.files hf
  | close =>
      obtain ⟨w', hs, hw⟩ := h.close (step_serve v .close)
      have he : w.work .close = _ := hs.serve_eq
      rw [he]
      exact ⟨rfl, hw⟩

end StandsIn

/-! ## Substitution -/

/-- An archive that takes every call. -/
structure Pile where
  deriving DecidableEq, Repr

instance : Archive Pile where
  writeEntry p _ _ _ := (.ok (), p)
  finish p := (.ok (), p)

theorem acceptsAll_pile (p : Pile) : AcceptsAll p := by
  intro cs c
  cases c <;> rfl

theorem steady_counter (c : Counter) : Steady c :=
  fun _ _ => rfl

/-- What a plain writer and a protected one have in common after the same tasks: their answers, the
paths in their archives, and their manifests but for what `Manifest.erase` takes away. -/
structure Substitutes (w : PlainWriter (Traced α)) (v : ProtectedWriter (Traced β) ρ)
    (qs : List Task) : Prop where
  results : (replay PlainWriter.work w qs).1 = (replay work v qs).1
  /-- The archives got the same paths in the same order, and were finished at the same times. -/
  paths : (replay PlainWriter.work w qs).2.archive.calls.map Made.path?
    = (replay work v qs).2.archive.calls.map Made.path?
  manifest : (replay work v qs).2.manifest.erase = (replay PlainWriter.work w qs).2.manifest
  /-- Where nothing is encrypted, the archives got the same calls, byte for byte. -/
  calls : (∀ q ∈ qs, q.inClear = true) →
    (replay PlainWriter.work w qs).2.archive.calls = (replay work v qs).2.archive.calls

/-- Writers between which `StandsIn` holds are, after all tasks, as `Substitutes` says. -/
theorem substitutes_of_standsIn {w : PlainWriter (Traced α)} {v : ProtectedWriter (Traced β) ρ}
    (h : ∀ exact, StandsIn exact w v) {qs : List Task}
    (hf : ∀ r ∈ (replay work v qs).1, r ≠ unfresh) : Substitutes w v qs := by
  obtain ⟨hr, hR⟩ := replay_lockstep PlainWriter.work work
    (StandsIn (∀ q ∈ qs, q.inClear = true))
    (fun q => (∀ q ∈ qs, q.inClear = true) → q.inClear = true) (· ≠ unfresh)
    (fun _ _ _ hR hs hu => StandsIn.work_eq hR hs hu) (h _) (fun q hq hall => hall q hq) hf
  exact ⟨hr, hR.paths, hR.manifest, fun hall => (hR.same hall).1⟩

/-- **A protected writer takes the place of a plain one.**  Over archives that refuse nothing and
with a source that never fails, a media type is refused by both writers or by none, and then every
list of tasks is carried out alike, as long as the source does not repeat its vectors so often that
the protected writer gives up. -/
theorem substitutes_openBy {archive : α} {archive' : β} (ha : AcceptsAll archive)
    (ha' : AcceptsAll archive') {random : ρ} (hr : Steady random) {password : Bytes}
    (hp : password ≠ []) {manner : Manner} {parameters : Parameters}
    (hm : manner.algorithm parameters = parameters.startKey) (mediaType : String) :
    (∃ e, PlainWriter.create (⟨archive, []⟩ : Traced α) mediaType = .error (e, ⟨archive, []⟩)
        ∧ openBy manner mediaType parameters (⟨archive', []⟩ : Traced β) random password
          = .error { error := e, archive := ⟨archive', []⟩, random })
      ∨ ∃ w v, PlainWriter.create (⟨archive, []⟩ : Traced α) mediaType = .ok w
        ∧ openBy manner mediaType parameters (⟨archive', []⟩ : Traced β) random password = .ok v
        ∧ ∀ qs, (∀ r ∈ (replay work v qs).1, r ≠ unfresh) → Substitutes w v qs := by
  rw [openBy_eq hp]
  unfold openWithDigest PlainWriter.create
  cases checkMediaType mediaType with
  | error e => exact .inl ⟨e, rfl, rfl⟩
  | ok u =>
      obtain ⟨salt, random', hs, hr'⟩ := hr.fill parameters.saltSize.toNat
      obtain ⟨key, hk⟩ := exists_packageKey parameters
        (.ofSecret (manner.algorithm parameters) password) salt
      obtain ⟨t, ht, hacc, hcalls⟩ := AcceptsAll.exists_traced (t := ⟨archive, []⟩) ha
        (.write Vocabulary.mimetypePath mediaType.toUTF8.toList .stored)
      obtain ⟨t', ht', hacc', hcalls'⟩ := AcceptsAll.exists_traced (t := ⟨archive', []⟩) ha'
        (.write Vocabulary.mimetypePath mediaType.toUTF8.toList .stored)
      have halg : (PasswordDigest.ofSecret (manner.algorithm parameters) password).algorithm
          = parameters.startKey := hm
      simp only [Archive.perform] at ht ht'
      simp only [halg, ne_eq, not_true_eq_false, if_false, hs, hk, ht, ht']
      refine .inr ⟨_, _, rfl, rfl, fun qs hf => substitutes_of_standsIn (fun exact => ?_) hf⟩
      exact {
        accepts := hacc, accepts' := hacc', steady := hr'
        fits := ⟨_, ofBytes?_of_packageKey hk⟩
        paths := by rw [hcalls, hcalls']
        manifest := rfl, written := rfl, phase := rfl
        same := fun _ => ⟨by rw [hcalls, hcalls'], rfl⟩ }

/-- Tasks of every kind on a `Pile`, with a path used twice and a close too many. -/
theorem substitutes_pile :
    AcceptsAll Pile.mk ∧ Steady (⟨0⟩ : Counter) ∧ ([112] : Bytes) ≠ []
      ∧ Manner.password.algorithm .least = Parameters.least.startKey
      ∧ ∃ w v, PlainWriter.create (⟨.mk, []⟩ : Traced Pile) "text" = .ok w
        ∧ openBy .password "text" .least (⟨.mk, []⟩ : Traced Pile) (⟨0⟩ : Counter) [112] = .ok v
        ∧ Substitutes w v [.add "a" "x" [1, 2] true, .document ⟨"c", "s", "m", "t"⟩,
            .add "a" "y" [3] false, .close, .close] := by
  have created : (PlainWriter.create (⟨.mk, []⟩ : Traced Pile) "text").isOk = true := by
    decide +kernel
  have fresh : (openBy .password "text" .least (⟨.mk, []⟩ : Traced Pile) (⟨0⟩ : Counter)
      [112]).toOption.all (fun v => (replay work v
        [.add "a" "x" [1, 2] true, .document ⟨"c", "s", "m", "t"⟩, .add "a" "y" [3] false, .close,
          .close]).1.all fun r =>
            Archive.failure? r != some (.random (.noFreshVector maxAttempts))) = true := by
    decide +kernel
  refine ⟨acceptsAll_pile _, steady_counter _, by decide, rfl, ?_⟩
  rcases substitutes_openBy (acceptsAll_pile .mk) (acceptsAll_pile .mk) (steady_counter ⟨0⟩)
    (by decide : ([112] : Bytes) ≠ []) (rfl : Manner.password.algorithm .least = _) "text" with
    ⟨e, hc, -⟩ | ⟨w, v, hw, hv, h⟩
  · rw [hc] at created
    cases created
  · rw [hv] at fresh
    refine ⟨w, v, hw, hv, h _ fun r hr hu => ?_⟩
    have hne := List.all_eq_true.mp fresh r hr
    rw [hu] at hne
    exact absurd hne (by decide)

end ProtectedWriter

end OpenDocument
