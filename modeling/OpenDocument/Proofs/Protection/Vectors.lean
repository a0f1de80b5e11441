import Mathlib.Data.List.Nodup
import OpenDocument.Proofs.Protection.Bookkeeping
import OpenDocument.Proofs.Protection.Protocol

/-!
# OpenDocument.Proofs.Protection.Vectors

No initialisation vector is used for two ciphertexts of a package, whatever its random source
gives.  The writer remembers the vector of every ciphertext that it hands to the archive, taken or
not (`sealings_run`), and only hands on what was sealed with a vector that it does not remember
(`Step.handover`).
-/

namespace OpenDocument

open Archive (Made Traced failure?)

/-! ## Ciphertexts on their way -/

/-- A ciphertext that was handed to an archive, with the vector it was made with. -/
structure Sealing where
  path : String
  vector : Bytes
  ciphertext : Bytes
  failure : Option Error

namespace Sealing

/-- The call on the archive that hands the `ciphertext` on. -/
def made (s : Sealing) : Made :=
  ⟨.write s.path s.ciphertext .stored, s.failure⟩

/-- What a record publishes of the ciphertext; compare `Record.mark`. -/
def mark (s : Sealing) : String × Bytes :=
  (s.path, s.vector)

/-- Whether the archive has taken the ciphertext. -/
def taken (s : Sealing) : Bool :=
  s.failure.isNone

/-- A ciphertext made with `Cipher.encryptBytes` under its `vector` with the given keys. -/
structure MadeWith (k : Cipher.RoundKeys) (s : Sealing) : Prop where
  length : s.vector.length = 16
  ciphertext : ∃ content filler, s.ciphertext
    = Cipher.encryptBytes k s.vector (Cipher.pad (Deflate.compress content) filler)

end Sealing

/-- What a record publishes of a ciphertext: its path and its vector. -/
def Record.mark (r : Record) : String × Bytes :=
  (r.path, r.vector)

/-- The calls of a log that hand on what is `stored` as it is, but for the media type. -/
def storedCalls (calls : List Made) : List Made :=
  calls.filter fun
    | ⟨.write path _ .stored, _⟩ => !Vocabulary.isReserved path
    | _ => false

theorem storedCalls_append (calls calls' : List Made) :
    storedCalls (calls ++ calls') = storedCalls calls ++ storedCalls calls' :=
  List.filter_append ..

theorem storedCalls_made {s : Sealing} (h : Vocabulary.isReserved s.path = false) :
    storedCalls [s.made] = [s.made] := by
  simp [storedCalls, Sealing.made, h]

namespace ProtectedWriter

variable {α ρ : Type} [Archive α] [RandomSource ρ]

/-- The ciphertext that a call hands to the archive, with what became of it. -/
def sealing? (w : ProtectedWriter α ρ) (q : Request) (result : Except Error Unit) :
    Option Sealing :=
  match q with
  | .write path _ content true =>
    if w.admits q then
      match (w.encryptContent content).1 with
      | .ok entry => some ⟨path, entry.vector, entry.ciphertext, failure? result⟩
      | .error _ => none
    else none
  | _ => none

/-- The `sealing?` of the call of a turn. -/
def Turn.sealing? (t : Turn α ρ) : Option Sealing :=
  t.before.sealing? t.request t.result

/-- The ciphertexts that were handed to the archive during a run, in order. -/
def sealings (w : ProtectedWriter α ρ) (qs : List Request) : List Sealing :=
  (w.turns qs).filterMap Turn.sealing?

theorem sealings_cons (w : ProtectedWriter α ρ) (q : Request) (qs : List Request) :
    w.sealings (q :: qs)
      = (w.sealing? q (w.serve q).1).toList ++ (w.serve q).2.sealings qs := by
  rw [sealings, turns_cons, List.filterMap_cons, sealings]
  cases h : Turn.sealing? (⟨w, q⟩ : Turn α ρ) with
  | none => rw [show w.sealing? q (w.serve q).1 = none from h]; rfl
  | some s => rw [show w.sealing? q (w.serve q).1 = some s from h]; rfl

omit [Archive α] in
theorem sealing?_of_not_admits {w : ProtectedWriter α ρ} {q : Request}
    (h : ¬ w.admits q = true) (result : Except Error Unit) : w.sealing? q result = none := by
  unfold sealing?
  split
  · rw [if_neg h]
  · rfl

omit [Archive α] in
/-- A call that gets as far as a ciphertext by `encryptContent` hands it on. -/
theorem sealing?_of_encryptContent {w : ProtectedWriter α ρ} {path mediaType : String}
    {content : Bytes} {entry : EncryptedEntry} {random : ρ} (hw : w.phase = .writing)
    (hp : checkPath w.written path = .ok ()) (he : w.encryptContent content = (.ok entry, random))
    (result : Except Error Unit) :
    w.sealing? (.write path mediaType content true) result
      = some ⟨path, entry.vector, entry.ciphertext, failure? result⟩ := by
  rw [sealing?, if_pos (admits_write_iff.mpr ⟨hw, hp⟩), he]

/-! ## One step -/

/-- What a call does to `vectors`, the memory of a writer: nothing, or it hands on one ciphertext,
made with a vector that the writer did not remember, and remembers it. -/
inductive Handover (k : Cipher.RoundKeys) (w : ProtectedWriter (Traced α) ρ) (q : Request)
    (result : Except Error Unit) (w' : ProtectedWriter (Traced α) ρ) : Prop
  | nothing (hs : w.sealing? q result = none) (hv : w'.vectors = w.vectors)
      (hr : w'.records = w.records)
      (hc : storedCalls w'.archive.calls = storedCalls w.archive.calls)
  | sealed {s : Sealing} (hs : w.sealing? q result = some s) (hm : s.MadeWith k)
      (hf : s.vector ∉ w.vectors) (hv : w'.vectors = s.vector :: w.vectors)
      (hr : w'.records.map Record.mark
        = w.records.map Record.mark ++ if s.taken then [s.mark] else [])
      (hc : storedCalls w'.archive.calls = storedCalls w.archive.calls ++ [s.made])

/-- Every `Step` is a `Handover`. -/
theorem Step.handover {w w' : ProtectedWriter (Traced α) ρ} {q : Request}
    {result : Except Error Unit} {k : Cipher.RoundKeys}
    (hk : Cipher.RoundKeys.ofBytes? w.key.bytes = some k) (h : Step w q result w') :
    Handover k w q result w' := by
  -- calls of any other kind are not among the stored ones
  have deflated : ∀ (calls : List Made) (path : String) (data : Bytes) (f : Option Error),
      storedCalls (calls ++ [⟨.write path data .deflated, f⟩]) = storedCalls calls := by
    intro calls path data f
    rw [storedCalls_append]
    exact List.append_nil _
  cases h with
  | refused h =>
      refine .nothing (sealing?_of_not_admits ?_ _) rfl rfl rfl
      intro ha
      rw [refusal?_of_admits ha] at h
      cases h
  | rejected hw hp =>
      refine .nothing (sealing?_of_not_admits ?_ _) rfl rfl rfl
      intro ha
      rw [(admits_write_iff.mp ha).2] at hp
      cases hp
  | unencrypted hw hp he =>
      refine .nothing ?_ rfl rfl rfl
      rw [sealing?, he]
      exact ite_self _
  | @encryptedLost path mediaType content entry e random archive hw hp he ha =>
      obtain ⟨p, hfit, hfresh, rfl⟩ := encryptFresh_eq_ok hk he
      have hpath := (entryPath_of_checkPath hp).1.isReserved_eq_false
      refine .sealed (sealing?_of_encryptContent hw hp he _)
        ⟨hfit.vector, content, p.filler, rfl⟩ hfresh rfl ?_ ?_
      · exact (List.append_nil _).symm
      · rw [Traced.calls_of_writeEntry ha, storedCalls_append, ← storedCalls_made hpath]
        rfl
  | @encrypted path mediaType content entry random archive ledger hw hp he ha hl =>
      obtain ⟨p, hfit, hfresh, rfl⟩ := encryptFresh_eq_ok hk he
      have hpath := (entryPath_of_checkPath hp).1.isReserved_eq_false
      refine .sealed (sealing?_of_encryptContent hw hp he _)
        ⟨hfit.vector, content, p.filler, rfl⟩ hfresh rfl ?_ ?_
      · rw [eq_of_record hl, records, List.map_append]
        rfl
      · rw [Traced.calls_of_writeEntry ha, storedCalls_append, ← storedCalls_made hpath]
        rfl
  | clearLost hw hp ha | clear hw hp ha =>
      refine .nothing rfl rfl rfl ?_
      rw [Traced.calls_of_writeEntry ha, deflated]
  | manifestLost hw ha =>
      refine .nothing rfl rfl rfl ?_
      rw [Traced.calls_of_writeEntry ha, deflated]
  | unfinished hw ha hf | closed hw ha hf =>
      refine .nothing rfl rfl rfl ?_
      rw [Traced.calls_of_finish hf, Traced.calls_of_writeEntry ha, storedCalls_append, deflated]
      exact List.append_nil _

/-! ## Runs -/

/-- A `run` remembers the vectors of its `sealings`, and has made them all with different ones. -/
theorem sealings_run {w : ProtectedWriter (Traced α) ρ} {k : Cipher.RoundKeys}
    (hk : Cipher.RoundKeys.ofBytes? w.key.bytes = some k) (qs : List Request) :
    (w.run qs).vectors = ((w.sealings qs).map Sealing.vector).reverse ++ w.vectors
      ∧ (w.vectors.Nodup → (w.run qs).vectors.Nodup)
      ∧ (∀ s ∈ w.sealings qs, s.MadeWith k)
      ∧ (w.run qs).records.map Record.mark
        = w.records.map Record.mark ++ ((w.sealings qs).filter Sealing.taken).map Sealing.mark
      ∧ storedCalls (w.run qs).archive.calls
        = storedCalls w.archive.calls ++ (w.sealings qs).map Sealing.made := by
  induction qs generalizing w with
  | nil => simp [sealings]
  | cons q qs ih =>
      have hkey : (w.serve q).2.key = w.key := (step_serve w q).frame.1
      obtain ⟨hv, hn, hm, hr, hc⟩ := ih (w := (w.serve q).2) (by rw [hkey, hk])
      rw [run_cons, sealings_cons]
      cases (step_serve w q).handover hk with
      | nothing hs hv' hr' hc' =>
          rw [hs, hv, hr, hc, hv', hr', hc']
          rw [hv, hv'] at hn
          exact ⟨rfl, hn, hm, rfl, rfl⟩
      | @sealed s hs hm' hf hv' hr' hc' =>
          rw [hs, hr, hc, hr', hc']
          refine ⟨?_, ?_, ?_, ?_, ?_⟩
          · rw [hv, hv']
            simp
          · intro hnodup
            exact hn (hv' ▸ List.nodup_cons.mpr ⟨hf, hnodup⟩)
          · intro s' hs'
            rcases List.mem_append.mp hs' with hs' | hs'
            · rw [Option.toList_some, List.mem_singleton] at hs'
              exact hs' ▸ hm'
            · exact hm s' hs'
          · cases ht : s.taken <;> simp [ht]
          · simp

/-- What comes of a call that encrypts `content` for `path`: the `Redraw` for an unused vector ends
with a `Pair`, and exactly what was sealed with it is handed on; or it fails, and the call with
it. -/
inductive Turn.Searched (k : Cipher.RoundKeys) (t : Turn (Traced α) (RecordedRandom ρ))
    (path : String) (content : Bytes) : Prop
  | found {p : Pair}
      (hr : Redraw t.before.vectors (fillerLength (Deflate.compress content)) maxAttempts t.draws
        (.ok p))
      (hc : t.calls = [⟨.write path (Cipher.encryptBytes k p.vector
        (Cipher.pad (Deflate.compress content) p.filler)) .stored, failure? t.result⟩])
  | failed {e : Error}
      (hr : Redraw t.before.vectors (fillerLength (Deflate.compress content)) maxAttempts t.draws
        (.error e))
      (he : t.result = .error e) (hc : t.calls = []) (ha : t.after.phase = .aborted)

theorem Turn.searched {t : Turn (Traced α) (RecordedRandom ρ)} {k : Cipher.RoundKeys}
    (hk : Cipher.RoundKeys.ofBytes? t.before.key.bytes = some k) (ha : t.admitted)
    {path mediaType : String} {content : Bytes}
    (hq : t.request = .write path mediaType content true) : t.Searched k path content := by
  obtain ⟨outcome, hr, ho⟩ := redraw hk ha hq
  cases outcome with
  | error e =>
      obtain ⟨he, hc⟩ := result_of_encryption_failed ha hq ho
      refine .failed hr he hc ?_
      rcases t.step.phase_of_admits ha with ⟨e', -, hp⟩ | ⟨h, -⟩
      · exact hp
      · rw [he] at h; cases h
  | ok p =>
      refine .found hr (calls_eq ?_)
      have hs := t.step
      rw [admitted, hq] at ha
      rw [hq] at hs
      rw [hs.calls_write ha, entryCall?, ho]
      rfl

/-- What holds of the vectors of a run from an opened writer. -/
structure Unrepeated (k : Cipher.RoundKeys) (w : ProtectedWriter (Traced α) (RecordedRandom ρ))
    (qs : List Request) : Prop where
  /-- The `sealings` of the run are all that was handed on to be stored. -/
  stored : storedCalls (w.run qs).archive.calls = (w.sealings qs).map Sealing.made
  made : ∀ s ∈ w.sealings qs, s.MadeWith k
  nodup : ((w.sealings qs).map Sealing.vector).Nodup
  /-- The records publish the vectors of the ciphertexts that were `Sealing.taken`. -/
  published : (w.run qs).records.map Record.mark
    = ((w.sealings qs).filter Sealing.taken).map Sealing.mark
  /-- The vectors that a call may not use are those of the ciphertexts in front of it. -/
  used : ∀ pre t post, w.turns qs = pre ++ t :: post →
    t.before.vectors = ((pre.filterMap Turn.sealing?).map Sealing.vector).reverse
  searched : ∀ t ∈ w.turns qs, t.admitted → ∀ path mediaType content,
    t.request = .write path mediaType content true → t.Searched k path content

end ProtectedWriter

end OpenDocument
