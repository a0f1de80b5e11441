import OpenDocument.Proofs.Protection.Substitution
import OpenDocument.Proofs.Protection.Vectors

/-!
# OpenDocument.Proofs.Protection.Separation

Entries in the clear and encrypted ones do not get in each other's way.  They share one writer, its
set of paths, its archive and its manifest.  A run is compared with the run that makes only the
calls of one kind: `SealedAlike` relates the writers where the calls in the clear are left out, and
`ClearAlike` where the others are.  Each relation is kept both when the two writers make a call
together and when only one of them does, so it is kept along the whole run (`turns_filter`), and two
runs with the same calls of a kind agree by way of the third.
-/

namespace OpenDocument

open Archive (Made Traced AcceptsAll)

/-- The calls of a log that hand on what is compressed, but for the manifest; compare
`storedCalls`. -/
def deflatedCalls (calls : List Made) : List Made :=
  calls.filter fun
    | ⟨.write path _ .deflated, _⟩ => !Vocabulary.isReserved path
    | _ => false

theorem deflatedCalls_append (calls calls' : List Made) :
    deflatedCalls (calls ++ calls') = deflatedCalls calls ++ deflatedCalls calls' :=
  List.filter_append ..

/-- The entries in the clear, those without a descriptor in `Entry.encryption`. -/
def Manifest.unencrypted (m : Manifest) : List Entry :=
  m.entries.filter fun e => !e.isEncrypted

theorem Manifest.unencrypted_push (m : Manifest) (e : Entry) :
    (m.push e).unencrypted = m.unencrypted ++ if e.isEncrypted then [] else [e] := by
  rw [unencrypted, entries_push, List.filter_append, unencrypted]
  cases he : e.isEncrypted <;> simp [he]

/-- An `EntryPath` that was not written before passes `checkPath`. -/
theorem EntryPath.checkPath {path : String} (h : EntryPath path) {written : List String}
    (hw : path ∉ written) : checkPath written path = .ok () := by
  refine checkPath_eq_ok_iff.mpr ⟨h.ne_empty, h.relative, ?_, hw⟩
  simp [Vocabulary.reservedPaths, h.ne_mimetype, h.ne_manifest]

/-- A path that passes the check passes it when fewer paths were written. -/
theorem checkPath_of_subset {written written' : List String} {path : String}
    (hp : checkPath written path = .ok ()) (hw : written' ⊆ written) :
    checkPath written' path = .ok () := by
  obtain ⟨hpath, hfresh⟩ := entryPath_of_checkPath hp
  exact hpath.checkPath fun hmem => hfresh (hw hmem)

namespace ProtectedWriter

variable {α ρ : Type}

/-! ## Calls that write different entries -/

/-- The path of the entry that a call writes. -/
def Request.path? : Request → Option String
  | .write path _ _ _ => some path
  | .close => none

/-- Whether a call encrypts. -/
def Request.encrypts : Request → Bool
  | .write _ _ _ encrypt => encrypt
  | .close => false

/-- Calls that write entries of different paths, none of which is in `written`. -/
structure Placeable (written : List String) (qs : List Request) : Prop where
  usable : ∀ q ∈ qs, ∃ path, q.path? = some path ∧ EntryPath path ∧ path ∉ written
  nodup : (qs.filterMap Request.path?).Nodup

/-- A call for an entry whose path passes `checkPath` when its turn comes. -/
def Turn.Usable (t : Turn α ρ) : Prop :=
  ∃ path, t.request.path? = some path ∧ checkPath t.before.written path = .ok ()

variable [Archive α] [RandomSource ρ]

/-- A call adds to `ProtectedWriter.written` at most its own `Request.path?`. -/
theorem Step.mem_written {w w' : ProtectedWriter α ρ} {q : Request} {result : Except Error Unit}
    (h : Step w q result w') {p : String} (hp : p ∈ w'.written) :
    p ∈ w.written ∨ q.path? = some p := by
  cases h with
  | encrypted | clear =>
      rcases List.mem_cons.mp hp with rfl | hp
      · exact .inr rfl
      · exact .inl hp
  | refused | rejected | unencrypted | encryptedLost | clearLost | manifestLost | unfinished
  | closed => exact .inl hp

/-- Behind the first of `Placeable` calls the others are still placeable. -/
theorem Placeable.step {w w' : ProtectedWriter α ρ} {q : Request} {qs : List Request}
    {result : Except Error Unit} (h : Placeable w.written (q :: qs)) (hs : Step w q result w') :
    Placeable w'.written qs := by
  obtain ⟨path, hpath, -, -⟩ := h.usable q (List.mem_cons_self ..)
  have hnodup := h.nodup
  rw [List.filterMap_cons_some hpath, List.nodup_cons] at hnodup
  refine ⟨fun q' hq' => ?_, hnodup.2⟩
  obtain ⟨path', hpath', hentry, hfresh⟩ := h.usable q' (List.mem_cons_of_mem q hq')
  refine ⟨path', hpath', hentry, fun hmem => ?_⟩
  rcases hs.mem_written hmem with hmem | heq
  · exact hfresh hmem
  · cases hpath.symm.trans heq
    exact hnodup.1 (List.mem_filterMap.mpr ⟨q', hq', hpath'⟩)

/-- The calls of a `Placeable` sequence are `Turn.Usable`, each when its turn comes. -/
theorem Placeable.usable_of_mem_turns {w : ProtectedWriter α ρ} {qs : List Request}
    (h : Placeable w.written qs) {t : Turn α ρ} (ht : t ∈ w.turns qs) : t.Usable := by
  induction qs generalizing w with
  | nil => cases ht
  | cons q qs ih =>
      rw [turns_cons, List.mem_cons] at ht
      rcases ht with rfl | ht
      · obtain ⟨path, hpath, hentry, hfresh⟩ := h.usable q (List.mem_cons_self ..)
        exact ⟨path, hpath, hentry.checkPath hfresh⟩
      · exact ih (h.step (step_serve w q)) ht

/-! ## Runs with some of the calls left out -/

/-- What an observer learns of one call: its answer, the draws that it made from the random source,
and the calls that it made on the archive. -/
structure Sight where
  request : Request
  result : Except Error Unit
  draws : List Draw
  calls : List Made

/-- The `Sight` of the call of a turn, which shows nothing of the writers before and behind it. -/
def Turn.sight (t : Turn (Traced α) (RecordedRandom ρ)) : Sight :=
  ⟨t.request, t.result, t.draws, t.calls⟩

section

variable {w v w' v' : ProtectedWriter (Traced α) (RecordedRandom ρ)} {q : Request}
  {result : Except Error Unit}

/-- Two steps with equal answers have equal sights (`Turn.sight`), if they add the same calls to the
log of the archive and the same draws to that of the source. -/
theorem sight_eq (hw : Step w q result w') (hv : Step v q result v') {made : List Made}
    (hc : w'.archive.calls = w.archive.calls ++ made)
    (hc' : v'.archive.calls = v.archive.calls ++ made)
    (hd : w'.random.draws.drop w.random.draws.length
      = v'.random.draws.drop v.random.draws.length) :
    (⟨w, q⟩ : Turn (Traced α) (RecordedRandom ρ)).sight
      = (⟨v, q⟩ : Turn (Traced α) (RecordedRandom ρ)).sight := by
  simp only [Turn.sight, Turn.result, Turn.draws, Turn.calls, Turn.after, hw.serve_eq, hv.serve_eq,
    hc, hc', hd, List.drop_left]

/-- How a writer that serves all calls keeps to one that serves only those for which `kept` holds,
with `R` between them: a usable call that is kept is served by both, with equal sights and `R`
behind it, and any other leaves `R` as it is. -/
structure Accompanies (R : ProtectedWriter (Traced α) (RecordedRandom ρ) →
      ProtectedWriter (Traced α) (RecordedRandom ρ) → Prop)
    (usable : Turn (Traced α) (RecordedRandom ρ) → Prop) (kept : Request → Bool) : Prop where
  alone : ∀ {w v : ProtectedWriter (Traced α) (RecordedRandom ρ)} {q}, R w v → usable ⟨w, q⟩ →
    kept q = false → R (w.serve q).2 v
  together : ∀ {w v : ProtectedWriter (Traced α) (RecordedRandom ρ)} {q}, R w v → usable ⟨w, q⟩ →
    kept q = true → Turn.sight ⟨w, q⟩ = Turn.sight ⟨v, q⟩ ∧ R (w.serve q).2 (v.serve q).2

/-- The calls for which `kept` holds have the same sights (`Turn.sight`) in a run of all calls and
in one of these calls alone. -/
theorem turns_filter {R : ProtectedWriter (Traced α) (RecordedRandom ρ) →
      ProtectedWriter (Traced α) (RecordedRandom ρ) → Prop}
    {usable : Turn (Traced α) (RecordedRandom ρ) → Prop} {kept : Request → Bool}
    (hR : Accompanies R usable kept) (h : R w v) {qs : List Request}
    (hu : ∀ t ∈ w.turns qs, usable t) :
    ((w.turns qs).filter fun t => kept t.request).map Turn.sight
        = (v.turns (qs.filter kept)).map Turn.sight
      ∧ R (w.run qs) (v.run (qs.filter kept)) := by
  induction qs generalizing w v with
  | nil => exact ⟨rfl, h⟩
  | cons q qs ih =>
      rw [turns_cons, List.forall_mem_cons] at hu
      cases hk : kept q with
      | false =>
          have hrest := ih (hR.alone h hu.1 hk) hu.2
          simpa [hk] using hrest
      | true =>
          obtain ⟨hsight, hnext⟩ := hR.together h hu.1 hk
          have hrest := ih hnext hu.2
          simpa [hk, hsight] using hrest

end

/-! ## Without the calls in the clear -/

section

variable {w v w' : ProtectedWriter (Traced α) (RecordedRandom ρ)} {q : Request}
  {result : Except Error Unit}

/-- Two writers that differ in nothing that an encrypted call looks at or changes: key, parameters,
salt, used vectors, records, source and phase are those of both. -/
structure SealedAlike (w v : ProtectedWriter (Traced α) (RecordedRandom ρ)) : Prop where
  accepts : AcceptsAll w.archive.archive
  accepts' : AcceptsAll v.archive.archive
  key : w.key = v.key
  parameters : w.ledger.parameters = v.ledger.parameters
  salt : w.ledger.salt = v.ledger.salt
  random : w.random = v.random
  vectors : w.vectors = v.vectors
  phase : w.phase = v.phase
  records : w.ledger.records = v.ledger.records
  encrypted : w.ledger.manifest.encrypted = v.ledger.manifest.encrypted
  stored : storedCalls w.archive.calls = storedCalls v.archive.calls
  written : v.written ⊆ w.written

namespace SealedAlike

theorem encryptContent (h : SealedAlike w v) (content : Bytes) :
    w.encryptContent content = v.encryptContent content := by
  simp only [ProtectedWriter.encryptContent, ProtectedWriter.parameters, h.key, h.parameters,
    h.random, h.vectors]

/-- A call in the clear leaves `SealedAlike` as it is, though only one writer serves it. -/
theorem clear (h : SealedAlike w v) {path : String} (hq : q.path? = some path)
    (he : q.encrypts = false) (hs : Step w q result w') : SealedAlike w' v := by
  cases hs with
  | refused | rejected => exact h
  | unencrypted | encryptedLost | encrypted => cases he
  | manifestLost | unfinished | closed => cases hq
  | @clearLost path mediaType content e archive hw hp ha =>
      obtain ⟨t, ht, -, -⟩ := h.accepts.exists_traced (.write path content .deflated)
      cases ha.symm.trans ht
  | @clear path mediaType content archive hw hp ha =>
      obtain ⟨t, ht, hacc, hcalls⟩ := h.accepts.exists_traced (.write path content .deflated)
      cases ha.symm.trans ht
      exact { h with
        accepts := hacc
        encrypted := by
          rw [Ledger.addClear, Manifest.encrypted_push, h.encrypted]
          exact List.append_nil _
        stored := by
          rw [hcalls, storedCalls_append, h.stored]
          exact List.append_nil _
        written := List.subset_cons_of_subset path h.written }

/-- An encrypted call that one of two `SealedAlike` writers serves, the other serves too, with the
same answer, the same draws and the same calls on the archive. -/
theorem sealed (h : SealedAlike w v) {path mediaType : String} {content : Bytes}
    (hp : checkPath w.written path = .ok ())
    (hs : Step w (.write path mediaType content true) result w') :
    ∃ v' made, Step v (.write path mediaType content true) result v'
      ∧ w'.archive.calls = w.archive.calls ++ made ∧ v'.archive.calls = v.archive.calls ++ made
      ∧ SealedAlike w' v' := by
  have hp' := checkPath_of_subset hp h.written
  cases hs with
  | refused hr =>
      rw [refusal?, h.phase] at hr
      exact ⟨v, [], .refused hr, (List.append_nil _).symm, (List.append_nil _).symm, h⟩
  | rejected hw he => cases hp.symm.trans he
  | unencrypted hw _ he =>
      rw [h.encryptContent] at he
      exact ⟨_, [], .unencrypted (h.phase ▸ hw) hp' he, (List.append_nil _).symm,
        (List.append_nil _).symm, { h with random := rfl, phase := rfl }⟩
  | @encryptedLost _ _ _ entry e random archive hw _ he ha =>
      obtain ⟨t, ht, -, -⟩ := h.accepts.exists_traced (.write path entry.ciphertext .stored)
      cases ha.symm.trans ht
  | @encrypted _ _ _ entry random archive ledger hw _ he ha hl =>
      obtain ⟨t, ht, hacc, hcalls⟩ :=
        h.accepts.exists_traced (.write path entry.ciphertext .stored)
      obtain ⟨t', ht', hacc', hcalls'⟩ :=
        h.accepts'.exists_traced (.write path entry.ciphertext .stored)
      obtain ⟨ledger', hl'⟩ := exists_record_of_checkPath hp' mediaType entry
      cases ha.symm.trans ht
      rw [h.encryptContent] at he
      have hrecord : w.recordOf path mediaType entry = v.recordOf path mediaType entry := by
        simp only [recordOf, ProtectedWriter.parameters, h.parameters]
      have hentry : w.ledger.entry (v.recordOf path mediaType entry)
          = v.ledger.entry (v.recordOf path mediaType entry) := by
        simp only [Ledger.entry, Ledger.descriptor, h.parameters, h.salt]
      refine ⟨_, _, .encrypted (h.phase ▸ hw) hp' he ht' hl', hcalls, hcalls', ?_⟩
      cases eq_of_record hl
      cases eq_of_record hl'
      exact { h with
        accepts := hacc, accepts' := hacc', random := rfl
        vectors := by rw [h.vectors]
        records := by rw [hrecord, h.records]
        encrypted := by
          rw [hrecord, hentry, Manifest.encrypted_push, Manifest.encrypted_push, h.encrypted]
        stored := by
          rw [hcalls, hcalls', storedCalls_append, storedCalls_append, h.stored]
        written := List.cons_subset_cons path h.written }

end SealedAlike

theorem accompanies_sealed :
    Accompanies (SealedAlike (α := α) (ρ := ρ)) Turn.Usable Request.encrypts where
  alone h hu hq := by
    obtain ⟨path, hpath, -⟩ := hu
    exact h.clear hpath hq (step_serve _ _)
  together := by
    rintro w v (⟨path, mediaType, content, encrypt⟩ | _) h ⟨path', hpath, hp⟩ hq
    · cases hpath
      cases hq
      have hs := step_serve w (.write path mediaType content true)
      obtain ⟨v', made, hs', hc, hc', h'⟩ := h.sealed hp hs
      refine ⟨sight_eq hs hs' hc hc' (by rw [h'.random, h.random]), ?_⟩
      rw [hs'.serve_eq]
      exact h'
    · cases hq

end

/-! ## Without the calls that encrypt -/

section

variable {w v w' : ProtectedWriter (Traced α) (RecordedRandom ρ)} {q : Request}
  {result : Except Error Unit}

/-- Two writers that differ in nothing that a call in the clear looks at or changes, and that are
both still writing. -/
structure ClearAlike (w v : ProtectedWriter (Traced α) (RecordedRandom ρ)) : Prop where
  accepts : AcceptsAll w.archive.archive
  accepts' : AcceptsAll v.archive.archive
  writing : w.phase = .writing
  writing' : v.phase = .writing
  unencrypted : w.ledger.manifest.unencrypted = v.ledger.manifest.unencrypted
  deflated : deflatedCalls w.archive.calls = deflatedCalls v.archive.calls
  written : v.written ⊆ w.written

namespace ClearAlike

/-- An encrypted call that succeeded leaves `ClearAlike` as it is, though only one writer serves
it. -/
theorem sealed (h : ClearAlike w v) (he : q.encrypts = true) (hs : Step w q (.ok ()) w') :
    ClearAlike w' v := by
  cases hs with
  | clear | closed => cases he
  | @encrypted path mediaType content entry random archive ledger hw hp _ ha hl =>
      obtain ⟨t, ht, hacc, hcalls⟩ :=
        h.accepts.exists_traced (.write path entry.ciphertext .stored)
      cases ha.symm.trans ht
      cases eq_of_record hl
      exact { h with
        accepts := hacc
        unencrypted := by
          rw [Manifest.unencrypted_push, h.unencrypted]
          exact List.append_nil _
        deflated := by
          rw [hcalls, deflatedCalls_append, h.deflated]
          exact List.append_nil _
        written := List.subset_cons_of_subset path h.written }

/-- A call in the clear that one of two `ClearAlike` writers serves, the other serves too, with the
same answer and the same calls on the archive. -/
theorem clear (h : ClearAlike w v) {path mediaType : String} {content : Bytes}
    (hp : checkPath w.written path = .ok ())
    (hs : Step w (.write path mediaType content false) result w') :
    ∃ v' made, Step v (.write path mediaType content false) result v'
      ∧ w'.archive.calls = w.archive.calls ++ made ∧ v'.archive.calls = v.archive.calls ++ made
      ∧ w'.random = w.random ∧ v'.random = v.random ∧ ClearAlike w' v' := by
  obtain ⟨t, ht, hacc, hcalls⟩ := h.accepts.exists_traced (.write path content .deflated)
  obtain ⟨t', ht', hacc', hcalls'⟩ := h.accepts'.exists_traced (.write path content .deflated)
  cases hs with
  | refused hr => cases ((refusal?_eq_none_iff w).mpr h.writing).symm.trans hr
  | rejected hw he => cases hp.symm.trans he
  | clearLost hw _ ha => cases ha.symm.trans ht
  | clear hw _ ha =>
      cases ha.symm.trans ht
      refine ⟨_, _, .clear h.writing' (checkPath_of_subset hp h.written) ht', hcalls, hcalls',
        rfl, rfl, ?_⟩
      exact { h with
        accepts := hacc, accepts' := hacc'
        unencrypted := by
          simp only [Ledger.addClear, Manifest.unencrypted_push, h.unencrypted]
        deflated := by
          rw [hcalls, hcalls', deflatedCalls_append, deflatedCalls_append, h.deflated]
        written := List.cons_subset_cons path h.written }

end ClearAlike

/-- A call that is `Turn.Usable`, and that succeeds if it encrypts. -/
def Turn.Succeeds (t : Turn α ρ) : Prop :=
  t.Usable ∧ (t.request.encrypts = true → t.result = .ok ())

theorem accompanies_clear :
    Accompanies (ClearAlike (α := α) (ρ := ρ)) Turn.Succeeds fun q => !q.encrypts where
  alone {w v q} h hu hq := by
    have he : q.encrypts = true := by simpa using hq
    have hs := step_serve w q
    rw [show (w.serve q).1 = .ok () from hu.2 he] at hs
    exact h.sealed he hs
  together := by
    rintro w v (⟨path, mediaType, content, encrypt⟩ | _) h ⟨⟨path', hpath, hp⟩, -⟩ hq
    · cases hpath
      cases encrypt with
      | true => cases hq
      | false =>
          have hs := step_serve w (.write path mediaType content false)
          obtain ⟨v', made, hs', hc, hc', hr, hr', h'⟩ := h.clear hp hs
          refine ⟨sight_eq hs hs' hc hc' (by simp [hr, hr']), ?_⟩
          rw [hs'.serve_eq]
          exact h'
    · cases hpath

end

/-! ## Separation -/

/-- After the calls `qs` and after the calls `qs'`, the writer `w` has the same encrypted entries:
each encrypted call has had the same sight (`Turn.sight`), and source, used vectors, stored calls,
records and encrypted entries of the manifest are the same. -/
structure SameSealed (w : ProtectedWriter (Traced α) (RecordedRandom ρ)) (qs qs' : List Request) :
    Prop where
  /-- The encrypted calls, in order, have had the same answers, draws and calls on the archive. -/
  sights : ((w.turns qs).filter fun t => t.request.encrypts).map Turn.sight
    = ((w.turns qs').filter fun t => t.request.encrypts).map Turn.sight
  /-- Nothing else is drawn. -/
  random : (w.run qs).random = (w.run qs').random
  vectors : (w.run qs).vectors = (w.run qs').vectors
  stored : storedCalls (w.run qs).archive.calls = storedCalls (w.run qs').archive.calls
  records : (w.run qs).records = (w.run qs').records
  encrypted : (w.run qs).manifest.encrypted = (w.run qs').manifest.encrypted

/-- After the calls `qs` and after the calls `qs'`, the writer `w` has the same entries in the
clear: each call in the clear has had the same sight, and the compressed calls on the archive and
the entries of the manifest without encryption are the same. -/
structure SameClear (w : ProtectedWriter (Traced α) (RecordedRandom ρ)) (qs qs' : List Request) :
    Prop where
  sights : ((w.turns qs).filter fun t => !t.request.encrypts).map Turn.sight
    = ((w.turns qs').filter fun t => !t.request.encrypts).map Turn.sight
  deflated : deflatedCalls (w.run qs).archive.calls = deflatedCalls (w.run qs').archive.calls
  unencrypted : (w.run qs).manifest.unencrypted = (w.run qs').manifest.unencrypted

section

variable {w : ProtectedWriter (Traced α) (RecordedRandom ρ)} {qs qs' : List Request}

theorem sameSealed_of_filter_eq (ha : AcceptsAll w.archive.archive) (hq : Placeable w.written qs)
    (hq' : Placeable w.written qs')
    (he : qs.filter Request.encrypts = qs'.filter Request.encrypts) : SameSealed w qs qs' := by
  have refl : SealedAlike w w :=
    ⟨ha, ha, rfl, rfl, rfl, rfl, rfl, rfl, rfl, rfl, rfl, List.Subset.refl _⟩
  obtain ⟨hs, h⟩ := turns_filter accompanies_sealed refl fun t ht => hq.usable_of_mem_turns ht
  obtain ⟨hs', h'⟩ := turns_filter accompanies_sealed refl fun t ht => hq'.usable_of_mem_turns ht
  rw [he] at hs h
  exact ⟨hs.trans hs'.symm, h.random.trans h'.random.symm, h.vectors.trans h'.vectors.symm,
    h.stored.trans h'.stored.symm, h.records.trans h'.records.symm,
    h.encrypted.trans h'.encrypted.symm⟩

theorem sameClear_of_filter_eq (ha : AcceptsAll w.archive.archive) (hw : w.phase = .writing)
    (hq : Placeable w.written qs) (hq' : Placeable w.written qs')
    (he : qs.filter (fun q => !q.encrypts) = qs'.filter fun q => !q.encrypts)
    (hok : ∀ t ∈ w.turns qs, t.request.encrypts = true → t.result = .ok ())
    (hok' : ∀ t ∈ w.turns qs', t.request.encrypts = true → t.result = .ok ()) :
    SameClear w qs qs' := by
  have refl : ClearAlike w w := ⟨ha, ha, hw, hw, rfl, rfl, List.Subset.refl _⟩
  obtain ⟨hs, h⟩ := turns_filter accompanies_clear refl
    fun t ht => ⟨hq.usable_of_mem_turns ht, hok t ht⟩
  obtain ⟨hs', h'⟩ := turns_filter accompanies_clear refl
    fun t ht => ⟨hq'.usable_of_mem_turns ht, hok' t ht⟩
  rw [he] at hs h
  exact ⟨hs.trans hs'.symm, h.deflated.trans h'.deflated.symm,
    h.unencrypted.trans h'.unencrypted.symm⟩

end

/-- **Entries in the clear and encrypted ones are separate.**  Two `Placeable` sequences of calls
are served by the same opened writer.  If they have the same encrypted calls in the same order,
nothing shows in the encrypted entries (`SameSealed`) of how the others were put in between,
whatever the source does; and if they have the same calls in the clear, nothing shows in the entries
in the clear (`SameClear`) of the encrypted calls, as long as those succeed. -/
theorem separate_of_opened {mediaType : String} {parameters : Parameters} {archive : α}
    {random : ρ} {w : ProtectedWriter (Traced α) (RecordedRandom ρ)} (ha : AcceptsAll archive)
    (h : Opened mediaType parameters ⟨archive, []⟩ ⟨random, []⟩ w) {qs qs' : List Request}
    (hq : Placeable [] qs) (hq' : Placeable [] qs') :
    (qs.filter Request.encrypts = qs'.filter Request.encrypts → SameSealed w qs qs')
      ∧ (qs.filter (fun q => !q.encrypts) = qs'.filter (fun q => !q.encrypts) →
        (∀ t ∈ w.turns qs, t.request.encrypts = true → t.result = .ok ()) →
        (∀ t ∈ w.turns qs', t.request.encrypts = true → t.result = .ok ()) →
          SameClear w qs qs') := by
  obtain ⟨t, ht, hacc, -⟩ := AcceptsAll.exists_traced (t := ⟨archive, []⟩) ha
    (.write Vocabulary.mimetypePath mediaType.toUTF8.toList .stored)
  obtain ⟨digest, salt, random', key, archive', -, hwrite, rfl⟩ := h.exists_eq
  cases hwrite.symm.trans ht
  exact ⟨sameSealed_of_filter_eq hacc hq hq', sameClear_of_filter_eq hacc rfl hq hq'⟩

/-- A call in the clear behind an encrypted one, in its place another one in front of it, and the
call in the clear by itself. -/
theorem separate_pile :
    AcceptsAll Pile.mk
      ∧ Placeable [] [.write "a" "x" [1, 2] true, .write "b" "y" [3] false]
      ∧ Placeable [] [.write "c" "z" [] false, .write "a" "x" [1, 2] true]
      ∧ Placeable [] [.write "b" "y" [3] false]
      ∧ ∃ w, Opened "text" .least (⟨.mk, []⟩ : Traced Pile) (⟨⟨0⟩, []⟩ : RecordedRandom Counter) w
        ∧ SameSealed w [.write "a" "x" [1, 2] true, .write "b" "y" [3] false]
          [.write "c" "z" [] false, .write "a" "x" [1, 2] true]
        ∧ SameClear w [.write "a" "x" [1, 2] true, .write "b" "y" [3] false]
          [.write "b" "y" [3] false] := by
  have usable (path : String) (h : checkPath [] path = .ok ()) : EntryPath path :=
    (entryPath_of_checkPath h).1
  have hq : Placeable [] [.write "a" "x" [1, 2] true, .write "b" "y" [3] false] :=
    ⟨by simpa [Request.path?] using ⟨usable "a" rfl, usable "b" rfl⟩, by decide⟩
  have hq' : Placeable [] [.write "c" "z" [] false, .write "a" "x" [1, 2] true] :=
    ⟨by simpa [Request.path?] using ⟨usable "c" rfl, usable "a" rfl⟩, by decide⟩
  have hq'' : Placeable [] [.write "b" "y" [3] false] :=
    ⟨by simpa [Request.path?] using usable "b" rfl, by decide⟩
  obtain ⟨w, hw, written⟩ := exists_eq_ok_of_any (x := (openWithPassword "text" .least
    (⟨.mk, []⟩ : Traced Pile) (⟨⟨0⟩, []⟩ : RecordedRandom Counter) [112]).1) (p := fun w =>
      (w.turns [.write "a" "x" [1, 2] true, .write "b" "y" [3] false]).all fun t =>
        Archive.failure? t.result == none) (by decide +kernel)
  refine ⟨acceptsAll_pile _, hq, hq', hq'', w, .withPassword hw, ?_, ?_⟩
  · exact (separate_of_opened (acceptsAll_pile .mk) (.withPassword hw) hq hq').1 rfl
  · refine (separate_of_opened (acceptsAll_pile .mk) (.withPassword hw) hq hq'').2 rfl ?_ ?_
    · intro t ht _
      have hok := List.all_eq_true.mp written t ht
      cases hr : t.result with
      | ok u => rfl
      | error e => rw [hr] at hok; cases hok
    · intro t ht he
      rw [turns_cons, turns_nil, List.mem_singleton] at ht
      subst ht
      cases he

end ProtectedWriter

end OpenDocument
