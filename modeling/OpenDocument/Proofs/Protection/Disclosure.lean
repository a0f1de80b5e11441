import Mathlib.Data.List.Forall2
import OpenDocument.Proofs.Archive
import OpenDocument.Proofs.Cipher
import OpenDocument.Proofs.Protection.Bookkeeping

/-!
# OpenDocument.Proofs.Protection.Disclosure

What a protected package shows of its password: nothing outside of its ciphertexts.  Two runs are
put side by side that differ in the password alone.  `Twins` relates their writers, `Twins.step`
takes it through each step, and `undisclosed_openBy` says what follows for whole runs, the opening
included.  The lemma that carries it is `encryptFresh_eq_drawFresh`: vectors and fillers are
drawn, and drawn again, without a look at the key.
-/

namespace OpenDocument

/-! ## Logs side by side -/

namespace Archive

/-- Two calls with their failures that show the same: equal ones, or two `stored` writes of
ciphertexts of one length under the path of an entry. -/
inductive Made.Alike : Made → Made → Prop
  | same (m : Made) : Alike m m
  | sealed {path : String} {data data' : Bytes} (failure : Option Error)
      (hp : Vocabulary.isReserved path = false) (hl : data.length = data'.length) :
      Alike ⟨.write path data .stored, failure⟩ ⟨.write path data' .stored, failure⟩

theorem Made.Alike.shape_eq {m m' : Made} (h : Made.Alike m m') :
    m.call.shape = m'.call.shape := by
  cases h with
  | same => rfl
  | sealed failure hp hl => simp only [Call.shape, hl]

variable {α β : Type} [Archive α] [Archive β]

/-- `Traced` archives that judge alike, with logs whose calls are `Made.Alike` one by one. -/
structure Traced.Alike (t : Traced α) (t' : Traced β) : Prop where
  agree : Agree t.archive t'.archive
  calls : List.Forall₂ Made.Alike t.calls t'.calls

/-- Calls that show the same are answered alike by `Archive.perform`, and the logs go on showing the
same. -/
theorem Traced.Alike.perform {t t₁ : Traced α} {t' : Traced β} (h : Traced.Alike t t')
    (c c' : Call) {result : Except Error Unit} (hc : Archive.perform t c = (result, t₁))
    (ha : ∀ failure, Made.Alike ⟨c, failure⟩ ⟨c', failure⟩) :
    ∃ t₁', Archive.perform t' c' = (result, t₁') ∧ Traced.Alike t₁ t₁' := by
  obtain ⟨hr, hagree⟩ := h.agree.perform (ha none).shape_eq
  rw [perform_eq, Prod.mk.injEq] at hc
  obtain ⟨rfl, rfl⟩ := hc
  rw [perform_eq, ← hr]
  exact ⟨_, rfl, hagree, List.rel_append h.calls (.cons (ha _) .nil)⟩

end Archive

open Archive (Made Traced Judges)

namespace ProtectedWriter

variable {α β ρ : Type} [Archive α] [Archive β] [RandomSource ρ]

/-! ## Writers side by side -/

/-- Two writers that differ in what they have from their passwords: `digest`, `key`, and the
ciphertexts in the logs of their archives. -/
structure Twins (w : ProtectedWriter (Traced α) ρ) (w' : ProtectedWriter (Traced β) ρ) : Prop where
  archive : Traced.Alike w.archive w'.archive
  random : w.random = w'.random
  ledger : w.ledger = w'.ledger
  vectors : w.vectors = w'.vectors
  written : w.written = w'.written
  phase : w.phase = w'.phase
  fits : ∃ k, Cipher.RoundKeys.ofBytes? w.key.bytes = some k
  fits' : ∃ k, Cipher.RoundKeys.ofBytes? w'.key.bytes = some k

/-- The `ciphertext` of `sealEntry` has one length under all keys. -/
theorem length_ciphertext_sealEntry (k : Cipher.RoundKeys) (compressed : Bytes) (summary : Summary)
    (parameters : Parameters) {p : Pair} (hp : p.Fits (fillerLength compressed)) :
    (sealEntry k compressed summary parameters p.vector p.filler).ciphertext.length
      = (Cipher.pad compressed p.filler).length := by
  have hpad := Cipher.length_pad hp.filler
  rw [ciphertext_sealEntry, Cipher.length_encryptBytes _ _ _ (by omega)]

namespace Twins

variable {w w₁ : ProtectedWriter (Traced α) ρ} {w' : ProtectedWriter (Traced β) ρ}

omit [RandomSource ρ] in
theorem refusal?_eq (h : Twins w w') : w.refusal? = w'.refusal? := by
  rw [refusal?, refusal?, h.phase]

/-- `Twins` draw the same when they encrypt a content (`drawFresh`), and each seals what was drawn
with its own key. -/
theorem exists_drawFresh (h : Twins w w') (content : Bytes) :
    ∃ (k k' : Cipher.RoundKeys) (drawn : Except Error Pair × ρ),
      (∀ p random, drawn = (.ok p, random) → p.Fits (fillerLength (Deflate.compress content)))
      ∧ w.encryptContent content = (drawn.1.map fun p => sealEntry k (Deflate.compress content)
          (Summary.of content) w.parameters p.vector p.filler, drawn.2)
      ∧ w'.encryptContent content = (drawn.1.map fun p => sealEntry k' (Deflate.compress content)
          (Summary.of content) w.parameters p.vector p.filler, drawn.2) := by
  obtain ⟨k, hk⟩ := h.fits
  obtain ⟨k', hk'⟩ := h.fits'
  refine ⟨k, k', drawFresh w.vectors (fillerLength (Deflate.compress content)) maxAttempts
    w.random, fun p random hp => fits_of_drawFresh hp, encryptFresh_eq_drawFresh hk _ _ _, ?_⟩
  rw [h.vectors, h.random, show w.parameters = w'.parameters from congrArg _ h.ledger]
  exact encryptFresh_eq_drawFresh hk' _ _ _

theorem encryptContent_error (h : Twins w w') {content : Bytes} {e : Error} {random : ρ}
    (he : w.encryptContent content = (.error e, random)) :
    w'.encryptContent content = (.error e, random) := by
  obtain ⟨k, k', ⟨outcome, random'⟩, -, hw, hw'⟩ := h.exists_drawFresh content
  rw [he] at hw
  cases outcome with
  | error e' => cases hw; exact hw'
  | ok p => cases hw

/-- `Twins` encrypt a content to entries that differ in `ciphertext` alone. -/
theorem encryptContent_ok (h : Twins w w') {content : Bytes} {entry : EncryptedEntry}
    {random : ρ} (he : w.encryptContent content = (.ok entry, random)) :
    ∃ entry', w'.encryptContent content = (.ok entry', random)
      ∧ entry.ciphertext.length = entry'.ciphertext.length ∧ entry'.vector = entry.vector
      ∧ ∀ path mediaType, w'.recordOf path mediaType entry' = w.recordOf path mediaType entry := by
  obtain ⟨k, k', ⟨outcome, random'⟩, hfit, hw, hw'⟩ := h.exists_drawFresh content
  rw [he] at hw
  cases outcome with
  | error e => cases hw
  | ok p =>
      have hp := hfit p random' rfl
      cases hw
      refine ⟨_, hw', ?_, rfl, fun path mediaType => ?_⟩
      · rw [length_ciphertext_sealEntry k _ _ _ hp, length_ciphertext_sealEntry k' _ _ _ hp]
      · rw [recordOf, recordOf, show w'.parameters = w.parameters from congrArg _ h.ledger.symm]
        rfl

/-- What one of the `Twins` does in a `Step`, the other does too, and they stay `Twins`. -/
theorem step (h : Twins w w') {q : Request} {result : Except Error Unit}
    (hs : Step w q result w₁) : ∃ w₁', Step w' q result w₁' ∧ Twins w₁ w₁' := by
  have writing : w.phase = .writing → w'.phase = .writing := fun hw => h.phase ▸ hw
  have checked : ∀ {path : String} {r : Except Error Unit}, checkPath w.written path = r →
      checkPath w'.written path = r := fun hp => h.written ▸ hp
  have document : ∀ {a : Traced α} {r : Except Error Unit},
      Archive.writeEntry w.archive Vocabulary.manifestPath w.ledger.toXml.toUTF8.toList .deflated
          = (r, a) →
        ∃ a', Archive.writeEntry w'.archive Vocabulary.manifestPath
            w'.ledger.toXml.toUTF8.toList .deflated = (r, a') ∧ Traced.Alike a a' := by
    intro a r ha
    rw [← h.ledger]
    exact h.archive.perform (.write _ _ _) _ ha fun _ => .same _
  cases hs with
  | refused hr => exact ⟨w', .refused (h.refusal?_eq ▸ hr), h⟩
  | rejected hw hp => exact ⟨w', .rejected (writing hw) (checked hp), h⟩
  | unencrypted hw hp he =>
      exact ⟨_, .unencrypted (writing hw) (checked hp) (h.encryptContent_error he),
        { h with random := rfl, phase := rfl }⟩
  | @encryptedLost path mediaType content entry e random archive hw hp he ha =>
      obtain ⟨entry', he', hlen, hv, -⟩ := h.encryptContent_ok he
      have hres := (entryPath_of_checkPath hp).1.isReserved_eq_false
      obtain ⟨archive', ha', harchive⟩ := h.archive.perform (.write _ _ _)
        (.write path entry'.ciphertext .stored) ha fun failure => .sealed failure hres hlen
      refine ⟨_, .encryptedLost (writing hw) (checked hp) he' ha', ?_⟩
      exact { h with
        archive := harchive, random := rfl, phase := rfl
        vectors := by rw [hv, h.vectors] }
  | @encrypted path mediaType content entry random archive ledger hw hp he ha hl =>
      obtain ⟨entry', he', hlen, hv, hrec⟩ := h.encryptContent_ok he
      have hres := (entryPath_of_checkPath hp).1.isReserved_eq_false
      obtain ⟨archive', ha', harchive⟩ := h.archive.perform (.write _ _ _)
        (.write path entry'.ciphertext .stored) ha fun failure => .sealed failure hres hlen
      have hl' : w'.ledger.record (w'.recordOf path mediaType entry') = .ok ledger := by
        rw [hrec, ← h.ledger, hl]
      refine ⟨_, .encrypted (writing hw) (checked hp) he' ha' hl', ?_⟩
      exact { h with
        archive := harchive, random := rfl, ledger := rfl
        vectors := by rw [hv, h.vectors]
        written := by rw [h.written] }
  | clearLost hw hp ha =>
      obtain ⟨archive', ha', harchive⟩ := h.archive.perform (.write _ _ _) _ ha fun _ => .same _
      exact ⟨_, .clearLost (writing hw) (checked hp) ha',
        { h with archive := harchive, phase := rfl }⟩
  | clear hw hp ha =>
      obtain ⟨archive', ha', harchive⟩ := h.archive.perform (.write _ _ _) _ ha fun _ => .same _
      refine ⟨_, .clear (writing hw) (checked hp) ha', ?_⟩
      exact { h with
        archive := harchive
        ledger := by rw [h.ledger]
        written := by rw [h.written] }
  | manifestLost hw ha =>
      obtain ⟨archive', ha', harchive⟩ := document ha
      exact ⟨_, .manifestLost (writing hw) ha', { h with archive := harchive, phase := rfl }⟩
  | unfinished hw ha hf =>
      obtain ⟨archive', ha', harchive⟩ := document ha
      obtain ⟨archive'', hf', harchive⟩ := harchive.perform .finish _ hf fun _ => .same _
      exact ⟨_, .unfinished (writing hw) ha' hf', { h with archive := harchive, phase := rfl }⟩
  | closed hw ha hf =>
      obtain ⟨archive', ha', harchive⟩ := document ha
      obtain ⟨archive'', hf', harchive⟩ := harchive.perform .finish _ hf fun _ => .same _
      exact ⟨_, .closed (writing hw) ha' hf', { h with archive := harchive, phase := rfl }⟩

/-- Twins answer every call alike. -/
theorem serve (h : Twins w w') (q : Request) :
    (w.serve q).1 = (w'.serve q).1 ∧ Twins (w.serve q).2 (w'.serve q).2 := by
  obtain ⟨w₁', hs, ht⟩ := h.step (step_serve w q)
  rw [hs.serve_eq]
  exact ⟨rfl, ht⟩

/-- `Twins` stay so over a `run`, and answer all of its calls alike. -/
theorem run (h : Twins w w') (qs : List Request) :
    (w.turns qs).map Turn.result = (w'.turns qs).map Turn.result
      ∧ Twins (w.run qs) (w'.run qs) := by
  induction qs generalizing w w' with
  | nil => exact ⟨rfl, h⟩
  | cons q qs ih =>
      obtain ⟨hr, ht⟩ := h.serve q
      obtain ⟨hrs, hts⟩ := ih ht
      refine ⟨?_, hts⟩
      rw [turns_cons, turns_cons, List.map_cons, List.map_cons, hrs]
      exact congrArg (· :: _) hr

end Twins

/-! ## Opening -/

/-- How a package is opened: by `openWithPassword`, or by `openWithDigest` with the digest that a
function makes of the password. -/
inductive Manner where
  | password
  | digest (algorithm : Hash.Algorithm)
  deriving DecidableEq, Repr

/-- The function that the password is reduced with: `Parameters.startKey`, or the one that was asked
for. -/
def Manner.algorithm (parameters : Parameters) : Manner → Hash.Algorithm
  | .password => parameters.startKey
  | .digest algorithm => algorithm

/-- Open a package in a manner. -/
def openBy (manner : Manner) (mediaType : String) (parameters : Parameters) (archive : α)
    (random : ρ) (password : Bytes) : Except (Refusal α ρ) (ProtectedWriter α ρ) :=
  match manner with
  | .password => (openWithPassword mediaType parameters archive random password).1
  | .digest algorithm =>
    match (hashPassword password algorithm).1 with
    | .error error => .error { error, archive, random }
    | .ok digest => openWithDigest mediaType parameters archive random digest

/-- However a package is opened, a password that is not empty counts by its digest: `openBy` is
`openWithDigest` with it. -/
theorem openBy_eq {password : Bytes} (hp : password ≠ []) (manner : Manner) (mediaType : String)
    (parameters : Parameters) (archive : α) (random : ρ) :
    openBy manner mediaType parameters archive random password
      = openWithDigest mediaType parameters archive random
          (.ofSecret (manner.algorithm parameters) password) := by
  have hempty : password.isEmpty = false := List.isEmpty_eq_false_iff.mpr hp
  cases manner <;>
    simp only [openBy, openWithPassword, hashPassword, hempty, Bool.false_eq_true, if_false,
      Manner.algorithm]

/-! ## Two runs -/

/-- What two runs of writers show alike: the answers of their calls, their draws, the calls on their
archives but for the contents of ciphertexts (`Made.Alike`), their records and their manifests. -/
structure SameSight (w : ProtectedWriter (Traced α) (RecordedRandom ρ))
    (w' : ProtectedWriter (Traced β) (RecordedRandom ρ)) (qs : List Request) : Prop where
  results : (w.turns qs).map Turn.result = (w'.turns qs).map Turn.result
  draws : (w.run qs).random.draws = (w'.run qs).random.draws
  calls : List.Forall₂ Made.Alike (w.run qs).archive.calls (w'.run qs).archive.calls
  records : (w.run qs).records = (w'.run qs).records
  manifest : (w.run qs).manifest = (w'.run qs).manifest

/-- Two openings that tell nothing apart: both are a `Refusal`, for the same reason and with the
same sight, or both give writers whose runs have the `SameSight`. -/
inductive Undisclosed :
    Except (Refusal (Traced α) (RecordedRandom ρ)) (ProtectedWriter (Traced α) (RecordedRandom ρ)) →
    Except (Refusal (Traced β) (RecordedRandom ρ)) (ProtectedWriter (Traced β) (RecordedRandom ρ)) →
    Prop
  | refused {r : Refusal (Traced α) (RecordedRandom ρ)} {r' : Refusal (Traced β) (RecordedRandom ρ)}
      (error : r.error = r'.error) (draws : r.random.draws = r'.random.draws)
      (calls : List.Forall₂ Made.Alike r.archive.calls r'.archive.calls) :
      Undisclosed (.error r) (.error r')
  | opened {w : ProtectedWriter (Traced α) (RecordedRandom ρ)}
      {w' : ProtectedWriter (Traced β) (RecordedRandom ρ)} (h : ∀ qs, SameSight w w' qs) :
      Undisclosed (.ok w) (.ok w')

theorem Twins.sameSight {w : ProtectedWriter (Traced α) (RecordedRandom ρ)}
    {w' : ProtectedWriter (Traced β) (RecordedRandom ρ)} (h : Twins w w') (qs : List Request) :
    SameSight w w' qs := by
  obtain ⟨hr, ht⟩ := h.run qs
  exact ⟨hr, congrArg _ ht.random, ht.archive.calls, congrArg _ ht.ledger, congrArg _ ht.ledger⟩

/-- Digests of one `algorithm` open packages that show the same. -/
theorem undisclosed_openWithDigest {archive : Traced α} {archive' : Traced β}
    (h : Traced.Alike archive archive') {digest digest' : PasswordDigest}
    (hd : digest.algorithm = digest'.algorithm) (mediaType : String) (parameters : Parameters)
    (random : RecordedRandom ρ) :
    Undisclosed (openWithDigest mediaType parameters archive random digest)
      (openWithDigest mediaType parameters archive' random digest') := by
  unfold openWithDigest
  rw [← hd]
  cases checkMediaType mediaType with
  | error e => exact .refused rfl rfl h.calls
  | ok u =>
      by_cases ha : digest.algorithm = parameters.startKey
      · simp only [ha, ne_eq, not_true_eq_false, if_false]
        cases RandomSource.fill random parameters.saltSize.toNat with
        | mk result random' =>
            cases result with
            | error e => exact .refused rfl rfl h.calls
            | ok salt =>
                obtain ⟨key, hk⟩ := exists_packageKey parameters digest salt
                obtain ⟨key', hk'⟩ := exists_packageKey parameters digest' salt
                simp only [hk, hk']
                cases hw : Archive.writeEntry archive Vocabulary.mimetypePath
                    mediaType.toUTF8.toList .stored with
                | mk result archive₁ =>
                    obtain ⟨archive₁', hw', halike⟩ :=
                      h.perform (.write _ _ _) _ hw fun _ => .same _
                    simp only [Archive.perform] at hw'
                    simp only [hw']
                    cases result with
                    | error e => exact .refused rfl rfl halike.calls
                    | ok u =>
                        refine .opened fun qs => Twins.sameSight ?_ qs
                        exact ⟨halike, rfl, rfl, rfl, rfl, rfl, ⟨_, ofBytes?_of_packageKey hk⟩,
                          ⟨_, ofBytes?_of_packageKey hk'⟩⟩
      · simp only [ha, ne_eq, not_false_eq_true, if_true]
        exact .refused rfl rfl h.calls

/-- **What a package shows.**  With archives that judge calls by their shapes, no password is told
from another by anything but the contents of ciphertexts: not by the opening, and after it not by
any sequence of calls. -/
theorem undisclosed_openBy {verdict : List Archive.Shape → Archive.Shape → Except Error Unit}
    {archive : α} {archive' : β} (ha : Judges verdict archive) (ha' : Judges verdict archive')
    {password password' : Bytes} (hp : password ≠ []) (hp' : password' ≠ []) (manner : Manner)
    (mediaType : String) (parameters : Parameters) (random : ρ) :
    Undisclosed
      (openBy manner mediaType parameters (⟨archive, []⟩ : Traced α)
        (⟨random, []⟩ : RecordedRandom ρ) password)
      (openBy manner mediaType parameters (⟨archive', []⟩ : Traced β) ⟨random, []⟩ password') := by
  have h : Traced.Alike (⟨archive, []⟩ : Traced α) (⟨archive', []⟩ : Traced β) :=
    ⟨⟨verdict, ha, ha'⟩, .nil⟩
  have hd : (PasswordDigest.ofSecret (manner.algorithm parameters) password).algorithm
      = (PasswordDigest.ofSecret (manner.algorithm parameters) password').algorithm := rfl
  rw [openBy_eq hp, openBy_eq hp']
  exact undisclosed_openWithDigest h hd mediaType parameters ⟨random, []⟩

/-- A `Shelf` judges by the number of the calls. -/
theorem judges_shelf (n : Nat) :
    Judges (fun seen _ => if seen.length < n then .ok () else .error (.stream (.other "no room")))
      (⟨n⟩ : Shelf) := by
  have room : ∀ cs : List Archive.Call,
      Archive.performAll (⟨n⟩ : Shelf) cs = ⟨n - cs.length⟩ := by
    intro cs
    induction cs generalizing n with
    | nil => rfl
    | cons c cs ih =>
        have hone : (Archive.perform (⟨n⟩ : Shelf) c).2 = ⟨n - 1⟩ := by
          cases n <;> cases c <;> rfl
        rw [Archive.performAll, List.foldl_cons, hone]
        refine (ih (n - 1)).trans ?_
        rw [List.length_cons, Nat.sub_sub, Nat.add_comm]
  intro cs c
  simp only [room, List.length_map]
  by_cases h : cs.length < n
  · obtain ⟨m, hm⟩ := Nat.exists_eq_succ_of_ne_zero (Nat.sub_ne_zero_of_lt h)
    rw [hm, if_pos h]
    cases c <;> rfl
  · rw [Nat.sub_eq_zero_of_le (Nat.le_of_not_lt h), if_neg h]
    cases c <;> rfl

/-- Two passwords on shelves with room for four calls, of which the last entry finds none. -/
theorem undisclosed_shelf :
    Judges (fun seen _ => if seen.length < 4 then .ok () else .error (.stream (.other "no room")))
        (⟨4⟩ : Shelf)
      ∧ ([112] : Bytes) ≠ [] ∧ ([113, 114] : Bytes) ≠ []
      ∧ Undisclosed
        (openBy .password "text" .least (⟨⟨4⟩, []⟩ : Traced Shelf)
          (⟨⟨0⟩, []⟩ : RecordedRandom Counter) [112])
        (openBy .password "text" .least (⟨⟨4⟩, []⟩ : Traced Shelf) ⟨⟨0⟩, []⟩ [113, 114])
      ∧ (openBy .password "text" .least (⟨⟨4⟩, []⟩ : Traced Shelf)
          (⟨⟨0⟩, []⟩ : RecordedRandom Counter) [112]).isOk = true :=
  ⟨judges_shelf 4, by decide, by decide,
    undisclosed_openBy (judges_shelf 4) (judges_shelf 4) (by decide) (by decide) _ _ _ _,
    by decide +kernel⟩

end ProtectedWriter

end OpenDocument
