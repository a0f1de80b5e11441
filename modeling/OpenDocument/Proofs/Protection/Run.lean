import OpenDocument.Protection.Writer

/-!
# OpenDocument.Proofs.Protection.Run

Runs of a protected writer: calls as data, the writer after a sequence of calls, and the turns of
a run, each with the writer that it met.  `Step` lists everything a call can do, one constructor
for each way through `writeEntry` and `close`, with the state it leaves spelled out in full;
`step_serve` says that the list is complete.  What a run keeps is proved by cases on `Step` and
`run_induction`, and nothing downstream unfolds the writer again.
-/

namespace OpenDocument

/-! ## Traced archives -/

namespace Archive.Traced

variable {α : Type} [Archive α]

theorem calls_of_writeEntry {a a' : Traced α} {path : String} {data : Bytes}
    {method : Zip.Method} {result : Except Error Unit}
    (h : Archive.writeEntry a path data method = (result, a')) :
    a'.calls = a.calls ++ [⟨.write path data method, failure? result⟩] := by
  cases h; rfl

theorem calls_of_finish {a a' : Traced α} {result : Except Error Unit}
    (h : Archive.finish a = (result, a')) :
    a'.calls = a.calls ++ [⟨.finish, failure? result⟩] := by
  cases h; rfl

end Archive.Traced

namespace ProtectedWriter

variable {α ρ : Type}

/-! ## Checks -/

/-- A writer serves calls exactly while its phase is `writing`. -/
theorem refusal?_eq_none_iff (w : ProtectedWriter α ρ) :
    w.refusal? = none ↔ w.phase = .writing := by
  unfold refusal?
  cases w.phase <;> simp

/-- `Ledger.record` takes any record whose path passed `checkPath`. -/
theorem exists_record_of_checkPath {w : ProtectedWriter α ρ} {path : String}
    (hp : checkPath w.written path = .ok ()) (mediaType : String) (entry : EncryptedEntry) :
    ∃ ledger, w.ledger.record (w.recordOf path mediaType entry) = .ok ledger := by
  have hr : path ∉ Vocabulary.reservedPaths := (checkPath_eq_ok_iff.mp hp).2.2.1
  have hb : Vocabulary.isReserved (w.recordOf path mediaType entry).path = false := by
    simpa [Vocabulary.isReserved, recordOf] using hr
  exact ⟨_, by rw [Ledger.record, hb]; rfl⟩

section

variable (w : ProtectedWriter α ρ) (path mediaType : String) (entry : EncryptedEntry)

@[simp] theorem path_recordOf : (w.recordOf path mediaType entry).path = path := rfl

@[simp] theorem vector_recordOf : (w.recordOf path mediaType entry).vector = entry.vector := rfl

end

variable [Archive α] [RandomSource ρ]

/-! ## Opening -/

/-- A writer that was opened by `openWithPassword` or by `openWithDigest`. -/
inductive Opened (mediaType : String) (parameters : Parameters) (archive : α) (random : ρ) :
    ProtectedWriter α ρ → Prop
  | withPassword {password : Bytes} {w : ProtectedWriter α ρ}
      (h : (openWithPassword mediaType parameters archive random password).1 = .ok w) :
      Opened mediaType parameters archive random w
  | withDigest {digest : PasswordDigest} {w : ProtectedWriter α ρ}
      (h : openWithDigest mediaType parameters archive random digest = .ok w) :
      Opened mediaType parameters archive random w

/-- A key that `packageKey` gives was derived by `deriveKey`, and it has the length that the
parameters ask for. -/
theorem packageKey_eq_ok {parameters : Parameters} {digest : PasswordDigest} {salt : Bytes}
    {key : PackageKey} (h : packageKey parameters digest salt = .ok key) :
    deriveKey digest salt parameters.iterations parameters.keySize.bytes = .ok key
      ∧ key.bytes.length = parameters.keySize.bytes := by
  unfold packageKey at h
  cases hd : deriveKey digest salt parameters.iterations parameters.keySize.bytes with
  | error e => rw [hd] at h; cases h
  | ok k =>
      rw [hd] at h
      by_cases hl : k.bytes.length = parameters.keySize.bytes
      · simp only [bind, Except.bind, ne_eq, hl, not_true_eq_false, if_false] at h
        cases h
        exact ⟨rfl, hl⟩
      · simp only [bind, Except.bind, ne_eq, hl, not_false_eq_true, if_true] at h
        cases h

/-- `Cipher.RoundKeys.ofBytes?` takes a key that `packageKey` gives. -/
theorem ofBytes?_of_packageKey {parameters : Parameters} {digest : PasswordDigest} {salt : Bytes}
    {key : PackageKey} (h : packageKey parameters digest salt = .ok key) :
    Cipher.RoundKeys.ofBytes? key.bytes
      = some (Cipher.RoundKeys.ofKey parameters.keySize key.bytes) := by
  rw [Cipher.RoundKeys.ofBytes?, (packageKey_eq_ok h).2, Cipher.KeySize.ofBytes?_bytes]
  rfl

/-- Whatever the password was, `packageKey` has a key for a salt of the size that the parameters ask
for. -/
theorem exists_packageKey (parameters : Parameters) (digest : PasswordDigest)
    (salt : SizedBytes parameters.saltSize.toNat) :
    ∃ key, packageKey parameters digest salt.val = .ok key := by
  have hiter : parameters.iterations ≠ 0 := fun h => by
    have := parameters.iterations_pos
    rw [h] at this
    exact absurd this (by decide)
  have hsalt : salt.val.isEmpty = false := by
    have hsize := UInt64.le_iff_toNat_le.mp parameters.saltSize_ge
    rw [← salt.property] at hsize
    cases hs : salt.val with
    | nil => rw [hs] at hsize; exact absurd hsize (by decide)
    | cons b bs => rfl
  have hkey : parameters.keySize.bytes ≠ 0 := by
    cases parameters.keySize <;> decide
  refine ⟨⟨Hash.pbkdf2 digest.bytes salt.val parameters.iterations.toNat
    parameters.keySize.bytes⟩, ?_⟩
  simp only [packageKey, deriveKey, hiter, hkey, hsalt, if_false, Bool.false_eq_true, bind,
    Except.bind, Hash.length_pbkdf2, ne_eq, not_true_eq_false]
  rfl

/-- A writer from `openWithDigest` has drawn a salt, derived a key and written the media type, in
this order, and has done nothing else. -/
theorem openWithDigest_eq_ok {mediaType : String} {parameters : Parameters} {archive : α}
    {random : ρ} {digest : PasswordDigest} {w : ProtectedWriter α ρ}
    (h : openWithDigest mediaType parameters archive random digest = .ok w) :
    ∃ salt random' key archive',
      digest.algorithm = parameters.startKey
        ∧ RandomSource.fill random parameters.saltSize.toNat = (.ok salt, random')
        ∧ packageKey parameters digest salt.val = .ok key
        ∧ Archive.writeEntry archive Vocabulary.mimetypePath mediaType.toUTF8.toList .stored
            = (.ok (), archive')
        ∧ w = { archive := archive', random := random', digest, key
                ledger := Ledger.empty mediaType parameters salt.val } := by
  unfold openWithDigest at h
  cases hm : checkMediaType mediaType with
  | error e => rw [hm] at h; cases h
  | ok u =>
      rw [hm] at h
      by_cases ha : digest.algorithm = parameters.startKey
      · simp only [ha, ne_eq, not_true_eq_false, if_false] at h
        cases hf : RandomSource.fill random parameters.saltSize.toNat with
        | mk result random' =>
            rw [hf] at h
            cases result with
            | error e => cases h
            | ok salt =>
                cases hk : packageKey parameters digest salt.val with
                | error e => simp only [hk] at h; cases h
                | ok key =>
                    simp only [hk] at h
                    cases hw : Archive.writeEntry archive Vocabulary.mimetypePath
                        mediaType.toUTF8.toList .stored with
                    | mk result archive' =>
                        rw [hw] at h
                        cases result with
                        | error e => cases h
                        | ok u =>
                            cases h
                            exact ⟨salt, random', key, archive', ha, rfl, hk, rfl, rfl⟩
      · simp only [ne_eq, ha, not_false_eq_true, if_true] at h
        cases h

/-- A writer from `openWithPassword` is one from `openWithDigest`, with the digest of the
password. -/
theorem openWithPassword_eq_ok {mediaType : String} {parameters : Parameters} {archive : α}
    {random : ρ} {password : Bytes} {w : ProtectedWriter α ρ}
    (h : (openWithPassword mediaType parameters archive random password).1 = .ok w) :
    ∃ digest, (hashPassword password parameters.startKey).1 = .ok digest
      ∧ openWithDigest mediaType parameters archive random digest = .ok w := by
  unfold openWithPassword at h
  cases hp : (hashPassword password parameters.startKey).1 with
  | error e => simp only [hp] at h; cases h
  | ok digest => simp only [hp] at h; exact ⟨digest, rfl, h⟩

namespace Opened

variable {mediaType : String} {parameters : Parameters} {archive : α} {random : ρ}
  {w : ProtectedWriter α ρ}

/-- However a writer was `Opened`, it has a key and a salt, its archive has taken the media type,
and nothing else has happened to it. -/
theorem exists_eq (h : Opened mediaType parameters archive random w) :
    ∃ digest salt random' key archive', packageKey parameters digest salt = .ok key
      ∧ Archive.writeEntry archive Vocabulary.mimetypePath mediaType.toUTF8.toList .stored
          = (.ok (), archive')
      ∧ w = { archive := archive', random := random', digest, key
              ledger := Ledger.empty mediaType parameters salt } := by
  have hdigest : ∃ digest, openWithDigest mediaType parameters archive random digest = .ok w := by
    cases h with
    | withPassword h =>
        obtain ⟨digest, -, ho⟩ := openWithPassword_eq_ok h
        exact ⟨digest, ho⟩
    | withDigest h => exact ⟨_, h⟩
  obtain ⟨digest, ho⟩ := hdigest
  obtain ⟨salt, random', key, archive', -, -, hk, ha, hw⟩ := openWithDigest_eq_ok ho
  exact ⟨digest, salt.val, random', key, archive', hk, ha, hw⟩

/-- The key of an opened writer fits the cipher that its parameters name. -/
theorem roundKeys (h : Opened mediaType parameters archive random w) :
    Cipher.RoundKeys.ofBytes? w.key.bytes
      = some (Cipher.RoundKeys.ofKey parameters.keySize w.key.bytes) := by
  obtain ⟨digest, salt, random', key, archive', hk, -, rfl⟩ := h.exists_eq
  exact ofBytes?_of_packageKey hk

theorem parameters_eq (h : Opened mediaType parameters archive random w) :
    w.parameters = parameters := by
  obtain ⟨digest, salt, random', key, archive', -, -, rfl⟩ := h.exists_eq
  rfl

end Opened

/-! ## Calls -/

/-- A call on a writer: `writeEntry` with its arguments, or `close`. -/
inductive Request where
  | write (path mediaType : String) (content : Bytes) (encrypt : Bool)
  | close
  deriving DecidableEq, Repr

/-- What a call answers, and the writer after it. -/
def serve (w : ProtectedWriter α ρ) : Request → Except Error Unit × ProtectedWriter α ρ
  | .write path mediaType content encrypt => w.writeEntry path mediaType content encrypt
  | .close => w.close

/-- What `encryptFresh` gives for a content, with the parameters, the key and the used vectors of a
writer. -/
def encryptContent (w : ProtectedWriter α ρ) (content : Bytes) :
    Except Error EncryptedEntry × ρ :=
  encryptFresh (Deflate.compress content) (Summary.of content) w.parameters w.key w.vectors
    maxAttempts w.random

/-- Everything that a call can do to a writer: `Step w q result w'` if the call `q` on `w` answers
`result` and leaves `w'`. -/
inductive Step (w : ProtectedWriter α ρ) :
    Request → Except Error Unit → ProtectedWriter α ρ → Prop
  /-- The package is complete or was given up (`refusal?`). -/
  | refused {q : Request} {e : Error} (h : w.refusal? = some e) : Step w q (.error e) w
  /-- The path does not pass `checkPath`. -/
  | rejected {path mediaType : String} {content : Bytes} {encrypt : Bool} {e : Error}
      (hw : w.phase = .writing) (hp : checkPath w.written path = .error e) :
      Step w (.write path mediaType content encrypt) (.error e) w
  /-- No fresh vector could be drawn, or the cipher could not be set up (`encryptContent`). -/
  | unencrypted {path mediaType : String} {content : Bytes} {e : Error} {random : ρ}
      (hw : w.phase = .writing) (hp : checkPath w.written path = .ok ())
      (he : w.encryptContent content = (.error e, random)) :
      Step w (.write path mediaType content true) (.error e)
        { w with random, phase := .aborted }
  /-- The archive did not take the ciphertext. -/
  | encryptedLost {path mediaType : String} {content : Bytes} {entry : EncryptedEntry} {e : Error}
      {random : ρ} {archive : α}
      (hw : w.phase = .writing) (hp : checkPath w.written path = .ok ())
      (he : w.encryptContent content = (.ok entry, random))
      (ha : Archive.writeEntry w.archive path entry.ciphertext .stored = (.error e, archive)) :
      Step w (.write path mediaType content true) (.error e)
        { w with random, archive, vectors := entry.vector :: w.vectors, phase := .aborted }
  /-- The ciphertext was written and recorded. -/
  | encrypted {path mediaType : String} {content : Bytes} {entry : EncryptedEntry}
      {random : ρ} {archive : α} {ledger : Ledger}
      (hw : w.phase = .writing) (hp : checkPath w.written path = .ok ())
      (he : w.encryptContent content = (.ok entry, random))
      (ha : Archive.writeEntry w.archive path entry.ciphertext .stored = (.ok (), archive))
      (hl : w.ledger.record (w.recordOf path mediaType entry) = .ok ledger) :
      Step w (.write path mediaType content true) (.ok ())
        { w with random, archive, ledger, vectors := entry.vector :: w.vectors
                 written := path :: w.written }
  /-- The archive did not take the content. -/
  | clearLost {path mediaType : String} {content : Bytes} {e : Error} {archive : α}
      (hw : w.phase = .writing) (hp : checkPath w.written path = .ok ())
      (ha : Archive.writeEntry w.archive path content .deflated = (.error e, archive)) :
      Step w (.write path mediaType content false) (.error e)
        { w with archive, phase := .aborted }
  /-- The content was written and listed. -/
  | clear {path mediaType : String} {content : Bytes} {archive : α}
      (hw : w.phase = .writing) (hp : checkPath w.written path = .ok ())
      (ha : Archive.writeEntry w.archive path content .deflated = (.ok (), archive)) :
      Step w (.write path mediaType content false) (.ok ())
        { w with archive, ledger := w.ledger.addClear path mediaType
                 written := path :: w.written }
  /-- The archive did not take the manifest. -/
  | manifestLost {e : Error} {archive : α} (hw : w.phase = .writing)
      (ha : Archive.writeEntry w.archive Vocabulary.manifestPath w.ledger.toXml.toUTF8.toList
        .deflated = (.error e, archive)) :
      Step w .close (.error e) { w with archive, phase := .aborted }
  /-- The archive could not be finished behind the manifest. -/
  | unfinished {e : Error} {archive archive' : α} (hw : w.phase = .writing)
      (ha : Archive.writeEntry w.archive Vocabulary.manifestPath w.ledger.toXml.toUTF8.toList
        .deflated = (.ok (), archive))
      (hf : Archive.finish archive = (.error e, archive')) :
      Step w .close (.error e) { w with archive := archive', phase := .aborted }
  /-- The package is complete. -/
  | closed {archive archive' : α} (hw : w.phase = .writing)
      (ha : Archive.writeEntry w.archive Vocabulary.manifestPath w.ledger.toXml.toUTF8.toList
        .deflated = (.ok (), archive))
      (hf : Archive.finish archive = (.ok (), archive')) :
      Step w .close (.ok ()) { w with archive := archive', phase := .closed }

theorem step_writeEncrypted {w : ProtectedWriter α ρ} {path : String}
    (hw : w.phase = .writing) (hp : checkPath w.written path = .ok ()) (mediaType : String)
    (content : Bytes) :
    Step w (.write path mediaType content true) (w.writeEntry path mediaType content true).1
      (w.writeEntry path mediaType content true).2 := by
  have hr := (refusal?_eq_none_iff w).mpr hw
  cases he : w.encryptContent content with
  | mk result random =>
      have he' := he
      unfold encryptContent at he'
      cases result with
      | error e =>
          simp only [writeEntry, hr, hp, if_true, writeEncrypted, he']
          exact .unencrypted hw hp he
      | ok entry =>
          cases ha : Archive.writeEntry w.archive path entry.ciphertext .stored with
          | mk result archive =>
              cases result with
              | error e =>
                  simp only [writeEntry, hr, hp, if_true, writeEncrypted, he', ha]
                  exact .encryptedLost hw hp he ha
              | ok u =>
                  obtain ⟨ledger, hl⟩ := exists_record_of_checkPath hp mediaType entry
                  have hs : w.writeEncrypted path mediaType content = (.ok (),
                      { w with random, archive, ledger, vectors := entry.vector :: w.vectors }) := by
                    simp only [writeEncrypted, he', ha]
                    split
                    · next h => cases h.symm.trans hl
                    · next h => cases h.symm.trans hl; rfl
                  simp only [writeEntry, hr, hp, if_true, hs]
                  exact .encrypted hw hp he ha hl

theorem step_writeClear {w : ProtectedWriter α ρ} {path : String}
    (hw : w.phase = .writing) (hp : checkPath w.written path = .ok ()) (mediaType : String)
    (content : Bytes) :
    Step w (.write path mediaType content false) (w.writeEntry path mediaType content false).1
      (w.writeEntry path mediaType content false).2 := by
  have hr := (refusal?_eq_none_iff w).mpr hw
  cases ha : Archive.writeEntry w.archive path content .deflated with
  | mk result archive =>
      cases result with
      | error e =>
          simp only [writeEntry, hr, hp, Bool.false_eq_true, if_false, writeClear, ha]
          exact .clearLost hw hp ha
      | ok u =>
          simp only [writeEntry, hr, hp, Bool.false_eq_true, if_false, writeClear, ha]
          exact .clear hw hp ha

theorem step_close {w : ProtectedWriter α ρ} (hw : w.phase = .writing) :
    Step w .close w.close.1 w.close.2 := by
  have hr := (refusal?_eq_none_iff w).mpr hw
  cases ha : Archive.writeEntry w.archive Vocabulary.manifestPath w.ledger.toXml.toUTF8.toList
      .deflated with
  | mk result archive =>
      cases result with
      | error e =>
          simp only [close, hr, ha]
          exact .manifestLost hw ha
      | ok u =>
          cases hf : Archive.finish archive with
          | mk result archive' =>
              cases result with
              | error e =>
                  simp only [close, hr, ha, hf]
                  exact .unfinished hw ha hf
              | ok u =>
                  simp only [close, hr, ha, hf]
                  exact .closed hw ha hf

/-- What `serve` does is a `Step`. -/
theorem step_serve (w : ProtectedWriter α ρ) (q : Request) :
    Step w q (w.serve q).1 (w.serve q).2 := by
  cases hr : w.refusal? with
  | some e =>
      have hs : w.serve q = (.error e, w) := by
        cases q with
        | write path mediaType content encrypt => simp only [serve, writeEntry, hr]
        | close => simp only [serve, close, hr]
      rw [hs]
      exact .refused hr
  | none =>
      have hw := (refusal?_eq_none_iff w).mp hr
      cases q with
      | close => exact step_close hw
      | write path mediaType content encrypt =>
          cases hp : checkPath w.written path with
          | error e =>
              have hs : w.serve (.write path mediaType content encrypt) = (.error e, w) := by
                simp only [serve, writeEntry, hr, hp]
              rw [hs]
              exact .rejected hw hp
          | ok u =>
              cases encrypt with
              | true => exact step_writeEncrypted hw hp mediaType content
              | false => exact step_writeClear hw hp mediaType content

/-- A `Step` tells what `serve` does, so that a call is known by any step that can be made. -/
theorem Step.serve_eq {w w' : ProtectedWriter α ρ} {q : Request} {result : Except Error Unit}
    (h : Step w q result w') : w.serve q = (result, w') := by
  cases h with
  | refused h => cases q <;> simp only [serve, writeEntry, close, h]
  | rejected hw hp => simp only [serve, writeEntry, (refusal?_eq_none_iff w).mpr hw, hp]
  | unencrypted hw hp he =>
      unfold encryptContent at he
      simp only [serve, writeEntry, (refusal?_eq_none_iff w).mpr hw, hp, if_true, writeEncrypted,
        he]
  | encryptedLost hw hp he ha =>
      unfold encryptContent at he
      simp only [serve, writeEntry, (refusal?_eq_none_iff w).mpr hw, hp, if_true, writeEncrypted,
        he, ha]
  | @encrypted path mediaType content entry random archive ledger hw hp he ha hl =>
      unfold encryptContent at he
      have hs : w.writeEncrypted path mediaType content = (.ok (),
          { w with random, archive, ledger, vectors := entry.vector :: w.vectors }) := by
        simp only [writeEncrypted, he, ha]
        split
        · next h => cases h.symm.trans hl
        · next h => cases h.symm.trans hl; rfl
      simp only [serve, writeEntry, (refusal?_eq_none_iff w).mpr hw, hp, if_true, hs]
  | clearLost hw hp ha | clear hw hp ha =>
      simp only [serve, writeEntry, (refusal?_eq_none_iff w).mpr hw, hp, Bool.false_eq_true,
        if_false, writeClear, ha]
  | manifestLost hw ha => simp only [serve, close, (refusal?_eq_none_iff w).mpr hw, ha]
  | unfinished hw ha hf | closed hw ha hf =>
      simp only [serve, close, (refusal?_eq_none_iff w).mpr hw, ha, hf]

/-- A ledger behind `Ledger.record` has the record as its last one, and the entry for it at the end
of the manifest. -/
theorem eq_of_record {l l' : Ledger} {r : Record} (h : l.record r = .ok l') :
    l' = { l with records := l.records ++ [r], manifest := l.manifest.push (l.entry r) } := by
  unfold Ledger.record at h
  by_cases hr : Vocabulary.isReserved r.path = true
  · rw [if_pos hr] at h; cases h
  · rw [if_neg hr] at h; cases h; rfl

/-- No call changes key, parameters, salt and media type. -/
theorem Step.frame {w w' : ProtectedWriter α ρ} {q : Request} {result : Except Error Unit}
    (h : Step w q result w') :
    w'.key = w.key ∧ w'.parameters = w.parameters ∧ w'.salt = w.salt
      ∧ w'.manifest.mediaType = w.manifest.mediaType := by
  cases h with
  | encrypted hw hp he ha hl => rw [eq_of_record hl]; exact ⟨rfl, rfl, rfl, rfl⟩
  | refused | rejected | unencrypted | encryptedLost | clearLost | clear | manifestLost
  | unfinished | closed => exact ⟨rfl, rfl, rfl, rfl⟩

/-- A writer that is not in the phase `writing` is changed by nothing. -/
theorem Step.eq_of_phase_ne {w w' : ProtectedWriter α ρ} {q : Request}
    {result : Except Error Unit} (h : Step w q result w') (hw : w.phase ≠ .writing) :
    w' = w ∧ ∃ e, w.refusal? = some e ∧ result = .error e := by
  cases h with
  | refused h => exact ⟨rfl, _, h, rfl⟩
  | rejected h | unencrypted h | encryptedLost h | encrypted h | clearLost h | clear h
  | manifestLost h | unfinished h | closed h => exact absurd h hw

/-! ## Runs -/

/-- The writer after a sequence of calls, each served by `serve`. -/
def run (w : ProtectedWriter α ρ) (qs : List Request) : ProtectedWriter α ρ :=
  qs.foldl (fun w q => (w.serve q).2) w

@[simp] theorem run_nil (w : ProtectedWriter α ρ) : w.run [] = w := rfl

@[simp] theorem run_cons (w : ProtectedWriter α ρ) (q : Request) (qs : List Request) :
    w.run (q :: qs) = (w.serve q).2.run qs := rfl

theorem run_append (w : ProtectedWriter α ρ) (qs qs' : List Request) :
    w.run (qs ++ qs') = (w.run qs).run qs' :=
  List.foldl_append

/-- What every `Step` keeps, a `run` keeps. -/
theorem run_induction {P : ProtectedWriter α ρ → Prop}
    (step : ∀ {w q r w'}, Step w q r w' → P w → P w') {w : ProtectedWriter α ρ} (h : P w)
    (qs : List Request) : P (w.run qs) := by
  induction qs generalizing w with
  | nil => exact h
  | cons q qs ih => exact ih (step (step_serve w q) h)

/-- The key, the parameters and the salt of a `run` are those it began with. -/
theorem run_frame (w : ProtectedWriter α ρ) (qs : List Request) :
    (w.run qs).key = w.key ∧ (w.run qs).parameters = w.parameters ∧ (w.run qs).salt = w.salt
      ∧ (w.run qs).manifest.mediaType = w.manifest.mediaType := by
  refine run_induction (P := fun v => v.key = w.key ∧ v.parameters = w.parameters
    ∧ v.salt = w.salt ∧ v.manifest.mediaType = w.manifest.mediaType) ?_ ⟨rfl, rfl, rfl, rfl⟩ qs
  intro v q result v' hs hv
  obtain ⟨hk, hp, ht, hm⟩ := hs.frame
  exact ⟨hk.trans hv.1, hp.trans hv.2.1, ht.trans hv.2.2.1, hm.trans hv.2.2.2⟩

/-- A `run` changes nothing of a writer that is not in the phase `writing`. -/
theorem run_of_phase_ne {w : ProtectedWriter α ρ} (hw : w.phase ≠ .writing) (qs : List Request) :
    w.run qs = w := by
  induction qs with
  | nil => rfl
  | cons q qs ih => rw [run_cons, ((step_serve w q).eq_of_phase_ne hw).1, ih]

/-- One call of a run, with the writer `before` that it met. -/
structure Turn (α ρ : Type) where
  before : ProtectedWriter α ρ
  request : Request

namespace Turn

/-- What the call answered. -/
def result (t : Turn α ρ) : Except Error Unit :=
  (t.before.serve t.request).1

/-- The writer after the call. -/
def after (t : Turn α ρ) : ProtectedWriter α ρ :=
  (t.before.serve t.request).2

theorem step (t : Turn α ρ) : Step t.before t.request t.result t.after :=
  step_serve t.before t.request

end Turn

/-- The calls of a run, in order. -/
def turns (w : ProtectedWriter α ρ) : List Request → List (Turn α ρ)
  | [] => []
  | q :: qs => ⟨w, q⟩ :: turns (w.serve q).2 qs

@[simp] theorem turns_nil (w : ProtectedWriter α ρ) : w.turns [] = [] := rfl

@[simp] theorem turns_cons (w : ProtectedWriter α ρ) (q : Request) (qs : List Request) :
    w.turns (q :: qs) = ⟨w, q⟩ :: (w.serve q).2.turns qs := rfl

/-- The turns of a run in front of one of them and behind it are the `turns` of runs themselves. -/
theorem turns_eq_append_cons {w : ProtectedWriter α ρ} {qs : List Request}
    {pre post : List (Turn α ρ)} {t : Turn α ρ} (h : w.turns qs = pre ++ t :: post) :
    ∃ qs₁ qs₂, qs = qs₁ ++ t.request :: qs₂ ∧ pre = w.turns qs₁ ∧ t.before = w.run qs₁
      ∧ post = t.after.turns qs₂ := by
  induction pre generalizing w qs with
  | nil =>
      cases qs with
      | nil => simp at h
      | cons q qs =>
          simp only [turns_cons, List.nil_append, List.cons.injEq] at h
          obtain ⟨rfl, rfl⟩ := h
          exact ⟨[], qs, rfl, rfl, rfl, rfl⟩
  | cons s pre ih =>
      cases qs with
      | nil => simp at h
      | cons q qs =>
          simp only [turns_cons, List.cons_append, List.cons.injEq] at h
          obtain ⟨rfl, h⟩ := h
          obtain ⟨qs₁, qs₂, rfl, rfl, hb, hp⟩ := ih h
          exact ⟨q :: qs₁, qs₂, rfl, rfl, hb, hp⟩

/-- The writer that a turn met is the writer after the calls in front of it. -/
theorem exists_run_of_mem_turns {w : ProtectedWriter α ρ} {qs : List Request} {t : Turn α ρ}
    (h : t ∈ w.turns qs) :
    ∃ qs₁ qs₂, qs = qs₁ ++ t.request :: qs₂ ∧ t.before = w.run qs₁ := by
  obtain ⟨pre, post, h⟩ := List.append_of_mem h
  obtain ⟨qs₁, qs₂, hq, -, hb, -⟩ := turns_eq_append_cons h
  exact ⟨qs₁, qs₂, hq, hb⟩

end ProtectedWriter

/-! ## Small archives and sources

Concrete collaborators, for evaluating runs. -/

/-- An archive with `room` for so many calls, which refuses every later one. -/
structure Shelf where
  room : Nat
  deriving DecidableEq, Repr

/-- A call on a shelf. -/
def Shelf.take (s : Shelf) : Except Error Unit × Shelf :=
  match s.room with
  | 0 => (.error (.stream (.other "no room")), s)
  | n + 1 => (.ok (), ⟨n⟩)

instance : Archive Shelf where
  writeEntry s _ _ _ := s.take
  finish s := s.take

/-- A source whose bytes count up. -/
structure Counter where
  next : Nat
  deriving DecidableEq, Repr

instance : RandomSource Counter where
  fill c n := (.ok ⟨(List.range n).map fun i => UInt8.ofNat (c.next + i), by simp⟩, ⟨c.next + n⟩)

/-- A source stuck on one byte. -/
structure Stuck where
  byte : UInt8
  deriving DecidableEq, Repr

instance : RandomSource Stuck where
  fill c n := (.ok ⟨List.replicate n c.byte, by simp⟩, c)

/-- The parameters with the least cost: one iteration, the shortest key and the shortest salt. -/
def Parameters.least : Parameters where
  startKey := .sha1
  iterations := 1
  keySize := .aes128
  saltSize := 8
  checksum := .content
  iterations_pos := by decide
  saltSize_ge := by decide

theorem exists_eq_ok_of_isOk {ε β : Type} {x : Except ε β} (h : x.isOk = true) :
    ∃ b, x = .ok b := by
  cases x with
  | error e => cases h
  | ok b => exact ⟨b, rfl⟩

/-- A result that `any` finds a property of is `ok`, and has it. -/
theorem exists_eq_ok_of_any {ε β : Type} {x : Except ε β} {p : β → Bool}
    (h : x.toOption.any p = true) : ∃ b, x = .ok b ∧ p b = true := by
  cases x with
  | error e => cases h
  | ok b => exact ⟨b, rfl, h⟩

end OpenDocument
