import Mathlib.Data.List.Induction
import OpenDocument.Proofs.Manifest
import OpenDocument.Proofs.Package.Run
import OpenDocument.Proofs.Protection.Bookkeeping

/-!
# OpenDocument.Proofs.Protection.Ledger

A ledger by itself, outside of any writer.  It keeps two lists that grow by two calls, one of which
may be refused, and nothing in its type ties them together.  `InStep` is what does: it is about the
calls made so far, and each further call keeps it, whatever the call is (`InStep.post`).
-/

namespace OpenDocument

/-- A record and the manifest entry for it say the same of the entry (`Describes`), and the manifest
entry says besides what holds for the whole package. -/
structure Record.Tallies (parameters : Parameters) (salt : Bytes) (r : Record) (e : Entry) : Prop
    extends r.Describes e where
  keyed : ∀ d, e.encryption = some d → d.salt = salt ∧ d.iterationCount = parameters.iterations
    ∧ d.keySize = UInt64.ofNat parameters.keySize.bytes
    ∧ d.keyDerivation = Vocabulary.keyDerivation
    ∧ d.startKeyGeneration = parameters.startKey.startKeyName
    ∧ d.startKeySize = UInt64.ofNat parameters.startKey.outputSize

namespace Ledger

theorem tallies_entry (l : Ledger) (r : Record) : r.Tallies l.parameters l.salt (l.entry r) where
  toDescribes := r.describes_entry l
  keyed := by
    rintro d ⟨⟩
    exact ⟨rfl, rfl, rfl, rfl, rfl, rfl⟩

/-! ## Postings -/

/-- A call on a ledger: `Ledger.record`, or the mention of an entry in the clear. -/
inductive Posting where
  | record (r : Record)
  | clear (path mediaType : String)
  deriving DecidableEq, Repr

/-- What a call answers, and the ledger after it. -/
def post (l : Ledger) : Posting → Except Error Unit × Ledger
  | .record r =>
    match l.record r with
    | .error e => (.error e, l)
    | .ok l => (.ok (), l)
  | .clear path mediaType => (.ok (), l.addClear path mediaType)

namespace Posting

/-- What a call answers, whatever the ledger: a record is refused for its path alone, if it
`isReserved`. -/
def answer : Posting → Except Error Unit
  | record r =>
    if r.path = Vocabulary.mimetypePath ∨ r.path = Vocabulary.manifestPath then
      .error (.format (.clearOnly r.path))
    else .ok ()
  | clear _ _ => .ok ()

/-- Whether the `answer` to a call is a success. -/
def isTaken (q : Posting) : Bool :=
  q.answer.isOk

def record? : Posting → Option Record
  | record r => some r
  | clear _ _ => none

end Posting

/-- The entry of a manifest that a taken call has made. -/
inductive Enters (parameters : Parameters) (salt : Bytes) : Posting → Entry → Prop
  | record {r : Record} {e : Entry} (h : r.Tallies parameters salt e) :
      Enters parameters salt (.record r) e
  | clear {path mediaType : String} :
      Enters parameters salt (.clear path mediaType)
        { path, mediaType, size := none, encryption := none }

variable {l : Ledger}

/-- The two paths that are refused are those that `Vocabulary.isReserved` knows. -/
theorem answer_record (r : Record) : (Posting.record r).answer =
    if Vocabulary.isReserved r.path then .error (.format (.clearOnly r.path)) else .ok () := by
  simp [Posting.answer, Vocabulary.isReserved, Vocabulary.reservedPaths]

theorem isTaken_record (r : Record) :
    (Posting.record r).isTaken = !Vocabulary.isReserved r.path := by
  rw [Posting.isTaken, answer_record]
  cases Vocabulary.isReserved r.path <;> rfl

/-- What `post` answers is `answer`. -/
theorem post_answer (l : Ledger) (q : Posting) : (l.post q).1 = q.answer := by
  cases q with
  | clear => rfl
  | record r =>
      by_cases hr : Vocabulary.isReserved r.path = true <;> simp [post, record, answer_record, hr]

/-- By a refused call, `post` leaves the ledger as it was. -/
theorem post_of_not_taken {q : Posting} (h : q.isTaken = false) : (l.post q).2 = l := by
  cases q with
  | clear => cases h
  | record r =>
      rw [isTaken_record, Bool.not_eq_eq_eq_not, Bool.not_false] at h
      simp [post, record, h]

/-- A taken record stands at the end of both lists, `records` and `entries`. -/
theorem post_record {r : Record} (h : (Posting.record r).isTaken = true) :
    (l.post (.record r)).2
      = { l with records := l.records ++ [r], manifest := l.manifest.push (l.entry r) } := by
  rw [isTaken_record, Bool.not_eq_eq_eq_not, Bool.not_true] at h
  simp [post, record, h]

/-! ## Lock step -/

/-- What ties the lists of a ledger to the calls `qs` that were made, and so to each other. -/
structure InStep (mediaType : String) (parameters : Parameters) (salt : Bytes)
    (qs : List Posting) (l : Ledger) : Prop where
  /-- What holds for the package stays as it was. -/
  fixed : l.parameters = parameters ∧ l.salt = salt ∧ l.manifest.mediaType = mediaType
  /-- The manifest lists what the taken calls have made (`Enters`), in order. -/
  listed : List.Forall₂ (Enters parameters salt) (qs.filter Posting.isTaken) l.manifest.entries
  /-- The records are those of the taken calls, in order. -/
  recorded : l.records = (qs.filter Posting.isTaken).filterMap Posting.record?
  /-- The records are the encrypted entries, one by one (`Record.Tallies`). -/
  tallied : List.Forall₂ (Record.Tallies parameters salt) l.records l.manifest.encrypted

namespace InStep

variable {mediaType : String} {parameters : Parameters} {salt : Bytes} {qs : List Posting}

theorem empty : InStep mediaType parameters salt [] (Ledger.empty mediaType parameters salt) :=
  ⟨⟨rfl, rfl, rfl⟩, .nil, rfl, .nil⟩

/-- Every `post` keeps the lists `InStep`. -/
theorem post (h : InStep mediaType parameters salt qs l) (q : Posting) :
    InStep mediaType parameters salt (qs ++ [q]) (l.post q).2 := by
  cases hq : q.isTaken with
  | false =>
      have hfilter : (qs ++ [q]).filter Posting.isTaken = qs.filter Posting.isTaken := by
        simp [hq]
      rw [post_of_not_taken hq]
      exact ⟨h.fixed, hfilter ▸ h.listed, hfilter ▸ h.recorded, h.tallied⟩
  | true =>
      have hfilter : (qs ++ [q]).filter Posting.isTaken = qs.filter Posting.isTaken ++ [q] := by
        simp [hq]
      cases q with
      | clear path mediaType =>
          refine ⟨h.fixed, ?_, ?_, ?_⟩
          · rw [hfilter]
            exact List.rel_append h.listed (.cons .clear .nil)
          · rw [hfilter, List.filterMap_append, ← h.recorded]
            exact (List.append_nil _).symm
          · simpa [Ledger.post, addClear, Manifest.encrypted_push, Entry.clear, Entry.isEncrypted]
              using h.tallied
      | record r =>
          have htally := l.tallies_entry r
          rw [h.fixed.1, h.fixed.2.1] at htally
          rw [post_record hq]
          refine ⟨h.fixed, ?_, ?_, ?_⟩
          · rw [hfilter]
            exact List.rel_append h.listed (.cons (.record htally) .nil)
          · rw [hfilter, List.filterMap_append, ← h.recorded]
            rfl
          · rw [Manifest.encrypted_push]
            exact List.rel_append h.tallied (.cons htally .nil)

end InStep

/-- Every `replay` of calls leaves the lists `InStep`. -/
theorem inStep_replay (mediaType : String) (parameters : Parameters) (salt : Bytes)
    (qs : List Posting) :
    InStep mediaType parameters salt qs (replay post (empty mediaType parameters salt) qs).2 := by
  induction qs using List.reverseRecOn with
  | nil => exact .empty
  | append_singleton qs q ih =>
      rw [replay_concat]
      exact ih.post q

theorem answers_replay (l : Ledger) (qs : List Posting) :
    (replay post l qs).1 = qs.map Posting.answer := by
  induction qs generalizing l with
  | nil => rfl
  | cons q qs ih => rw [replay_cons, List.map_cons, post_answer, ih]

/-- What a ledger is after a sequence of calls: its lists are `InStep`, and more holds of the
answers and of the document. -/
structure LockStep (mediaType : String) (parameters : Parameters) (salt : Bytes) (qs : List Posting)
    (results : List (Except Error Unit)) (l : Ledger) : Prop
    extends InStep mediaType parameters salt qs l where
  /-- Only the records of the two reserved paths are refused, -/
  answers : results = qs.map Posting.answer
  /-- and a refused call leaves the ledger as it was. -/
  refused : ∀ v ∈ visits post (empty mediaType parameters salt) qs, ∀ e,
    (v.before.post v.request).1 = .error e → (v.before.post v.request).2 = v.before
  /-- The document says what the manifest says, unless the root is listed as an entry. -/
  parsed : (∀ e ∈ l.manifest.entries, e.path ≠ "/") → Manifest.parse l.toXml = .ok l.manifest

/-- **Records and manifest go in step.**  Whatever calls are made on an `empty` ledger, its manifest
lists the taken ones in order, its records are those of the taken ones, and the two agree entry by
entry in every field; what is refused is refused for its path and leaves no trace; and the document
of the manifest is read back as it was. -/
theorem lockStep_of_postings (mediaType : String) (parameters : Parameters) (salt : Bytes)
    (qs : List Posting) :
    LockStep mediaType parameters salt qs (replay post (empty mediaType parameters salt) qs).1
      (replay post (empty mediaType parameters salt) qs).2 where
  toInStep := inStep_replay mediaType parameters salt qs
  answers := answers_replay _ qs
  refused v _ e he := by
    rw [post_answer] at he
    rw [post_of_not_taken (by rw [Posting.isTaken, he]; rfl)]
  parsed h := Manifest.parse_toXml h

end Ledger

end OpenDocument
