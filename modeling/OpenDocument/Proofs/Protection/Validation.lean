import OpenDocument.Proofs.Protection.Bookkeeping
import OpenDocument.Proofs.Protection.Opening
import OpenDocument.Proofs.Protection.Protocol

/-!
# OpenDocument.Proofs.Protection.Validation

Parameters are checked when they are built, and never fail later.  `Draft.exists_build_iff` says
which choices are taken, and `Parameters.draft` that they are taken as they were made.  Size of the
key is looked at again in three places: where the key is derived, where a record names the cipher,
and where a content is encrypted, which goes by the length of the key alone.  `Dependable` says that
these agree in every run: no call fails for the parameters (`Turn.Cause`), and every record names
the cipher that made its ciphertext (`NamesCipher`), by the identifier that `Cipher.Names` has for
keys of that length.
-/

namespace OpenDocument

open Archive (Made Traced failure?)

/-! ## Building parameters -/

namespace Parameters

namespace Setting

def startKey? : Setting → Option Hash.Algorithm
  | .startKey algorithm => some algorithm
  | _ => none

def iterations? : Setting → Option UInt32
  | .iterations count => some count
  | _ => none

def keySize? : Setting → Option UInt64
  | .keySize bytes => some bytes
  | _ => none

def saltSize? : Setting → Option UInt64
  | .saltSize bytes => some bytes
  | _ => none

def checksum? : Setting → Option ChecksumKind
  | .checksum kind => some kind
  | _ => none

end Setting

/-- The last choice of one kind among the settings, or else what stands without a choice. -/
def lastChoice {β : Type} (choice? : Setting → Option β) (settings : List Setting) (otherwise : β) :
    β :=
  (settings.filterMap choice?).getLastD otherwise

theorem lastChoice_cons {β : Type} (choice? : Setting → Option β) (s : Setting)
    (settings : List Setting) (otherwise : β) :
    lastChoice choice? (s :: settings) otherwise
      = lastChoice choice? settings ((choice? s).getD otherwise) := by
  rw [lastChoice, lastChoice, List.filterMap_cons]
  cases choice? s with
  | none => rfl
  | some b => exact List.getLastD_cons ..

/-- What settings choose: of every field the `lastChoice` counts. -/
def chosen (settings : List Setting) (d : Draft) : Draft where
  startKey := lastChoice Setting.startKey? settings d.startKey
  iterations := lastChoice Setting.iterations? settings d.iterations
  keySize := lastChoice Setting.keySize? settings d.keySize
  saltSize := lastChoice Setting.saltSize? settings d.saltSize
  checksum := lastChoice Setting.checksum? settings d.checksum

/-- Settings made one after the other by `Draft.set` leave the last choice of every kind. -/
theorem foldl_set (settings : List Setting) (d : Draft) :
    settings.foldl Draft.set d = chosen settings d := by
  induction settings generalizing d with
  | nil => rfl
  | cons s settings ih =>
      rw [List.foldl_cons, ih]
      simp only [chosen, lastChoice_cons]
      cases s <;> rfl

/-- The choices that `Parameters` were built from. -/
def draft (p : Parameters) : Draft where
  startKey := p.startKey
  iterations := p.iterations
  keySize := UInt64.ofNat p.keySize.bytes
  saltSize := p.saltSize
  checksum := p.checksum

/-- `Draft.build` makes parameters of their own choices, -/
theorem build_draft (p : Parameters) : p.draft.build = .ok p := by
  have hiter : p.draft.iterations ≠ 0 := UInt32.pos_iff_ne_zero.mp p.iterations_pos
  have hsalt : ¬ p.draft.saltSize < leastSaltSize := UInt64.not_lt.mpr p.saltSize_ge
  have hkey : Cipher.KeySize.ofBytes? p.draft.keySize.toNat = some p.keySize := by
    simp only [draft]
    cases p.keySize <;> rfl
  unfold Draft.build
  split
  · next h => cases h.symm.trans hkey
  · next h =>
      cases h.symm.trans hkey
      rw [dif_neg hiter, dif_neg hsalt]
      rfl

/-- and from no others. -/
theorem draft_of_build {d : Draft} {p : Parameters} (h : d.build = .ok p) : p.draft = d := by
  unfold Draft.build at h
  split at h
  · cases h
  · next keySize hkey =>
      split at h
      · cases h
      · split at h
        · cases h
        · cases h
          simp only [draft, Cipher.KeySize.bytes_of_ofBytes? hkey, UInt64.ofNat_toNat]

/-- `Draft.build` succeeds exactly for these choices. -/
theorem Draft.exists_build_iff (d : Draft) :
    (∃ p, d.build = .ok p)
      ↔ d.keySize ∈ ([16, 24, 32] : List UInt64) ∧ 1 ≤ d.iterations ∧ 8 ≤ d.saltSize := by
  constructor
  · rintro ⟨p, h⟩
    obtain rfl := draft_of_build h
    refine ⟨?_, p.iterations_pos, p.saltSize_ge⟩
    simp only [draft]
    cases p.keySize <;> decide
  · rintro ⟨hkey, hiter, hsalt⟩
    have build (keySize : Cipher.KeySize) (hk : d.keySize = UInt64.ofNat keySize.bytes) :
        ∃ p, d.build = .ok p := by
      let p : Parameters :=
        ⟨d.startKey, d.iterations, keySize, d.saltSize, d.checksum, hiter, hsalt⟩
      have hd : p.draft = d := by simp only [draft, p, ← hk]
      exact ⟨p, hd ▸ p.build_draft⟩
    simp only [List.mem_cons, List.not_mem_nil, or_false] at hkey
    rcases hkey with hk | hk | hk
    · exact build .aes128 hk
    · exact build .aes192 hk
    · exact build .aes256 hk

end Parameters

/-! ## The variant of the cipher -/

/-- The variant of the cipher that `encryptPadded` uses a key with, by its length. -/
def PackageKey.variant? (key : PackageKey) : Option Cipher.KeySize :=
  Cipher.KeySize.ofBytes? key.bytes.length

/-- `encryptPadded` encrypts a text with the variant that the length of the key asks for. -/
theorem encryptPadded_of_variant {key : PackageKey} {v : Cipher.KeySize}
    (h : key.variant? = some v) (vector padded : Bytes) :
    encryptPadded key vector padded
      = .ok (Cipher.encryptBytes (.ofKey v key.bytes) vector padded) := by
  have hk : Cipher.RoundKeys.ofBytes? key.bytes = some (.ofKey v key.bytes) :=
    congrArg (Option.map fun size => Cipher.RoundKeys.ofKey size key.bytes) h
  rw [encryptPadded, hk]

/-- The `identifier` of the largest variant names no other one. -/
theorem Cipher.KeySize.identifier_eq_iff (v : Cipher.KeySize) :
    v.identifier = "http://www.w3.org/2001/04/xmlenc#aes256-cbc" ↔ v.bytes = 32 := by
  cases v <;> decide

/-- The `identifier` of a variant names the cipher for keys of the length that it is used with
(`Cipher.Names`). -/
theorem PackageKey.names_identifier {key : PackageKey} {v : Cipher.KeySize}
    (h : key.variant? = some v) : Cipher.Names v.identifier key.bytes.length := by
  rw [← Cipher.KeySize.bytes_of_ofBytes? h]
  exact v.names_identifier

/-- `NamesCipher key e write`: the entry `e` of a manifest lists the accepted `write` and, if that
is a ciphertext, names the variant that `encryptPadded` has made it with.  By `Cipher.Names`, the
name is the one for keys as long as `key`. -/
inductive NamesCipher (key : PackageKey) : Entry → String × Bytes × Zip.Method → Prop
  | encrypted {e : Entry} {d : Descriptor} {v : Cipher.KeySize} {content filler data : Bytes}
      (hd : e.encryption = some d) (hv : key.variant? = some v)
      (ha : d.algorithm = v.identifier) (hn : Cipher.Names d.algorithm key.bytes.length)
      (hs : d.keySize = UInt64.ofNat v.bytes)
      (hp : encryptPadded key d.initialisationVector
        (Cipher.pad (Deflate.compress content) filler) = .ok data)
      (hc : data = Cipher.encryptBytes (.ofKey v key.bytes) d.initialisationVector
        (Cipher.pad (Deflate.compress content) filler)) :
      NamesCipher key e (e.path, data, .stored)
  | clear {e : Entry} {data : Bytes} (hd : e.encryption = none) :
      NamesCipher key e (e.path, data, .deflated)

namespace ProtectedWriter

variable {α ρ : Type} [Archive α] [RandomSource ρ]

/-! ## Opening -/

/-- A package that `openWithPassword` or `openWithDigest` did not open. -/
inductive Unopened (mediaType : String) (parameters : Parameters) (archive : α) (random : ρ) :
    Refusal α ρ → Prop
  | withPassword {password : Bytes} {refusal : Refusal α ρ}
      (h : (openWithPassword mediaType parameters archive random password).1 = .error refusal) :
      Unopened mediaType parameters archive random refusal
  | withDigest {digest : PasswordDigest} {refusal : Refusal α ρ}
      (h : openWithDigest mediaType parameters archive random digest = .error refusal) :
      Unopened mediaType parameters archive random refusal

/-- Why a package is not opened.  The key is not among the reasons. -/
inductive OpeningFault (mediaType : String) (parameters : Parameters) (archive : Traced α)
    (random : TracedRandom ρ) : Error → Prop
  | noPassword : OpeningFault mediaType parameters archive random .emptyPassword
  | noMediaType (h : Blank mediaType) :
      OpeningFault mediaType parameters archive random (.configuration .mediaTypeNotSet)
  | mismatch {algorithm : Hash.Algorithm} (h : algorithm ≠ parameters.startKey) :
      OpeningFault mediaType parameters archive random
        (.configuration (.digestMismatch algorithm parameters.startKey))
  | undrawn {e : Error}
      (h : (RandomSource.fill random.source parameters.saltSize.toNat).1 = .error e) :
      OpeningFault mediaType parameters archive random e
  | unwritten {e : Error}
      (h : (Archive.writeEntry archive.archive Vocabulary.mimetypePath mediaType.toUTF8.toList
        .stored).1 = .error e) :
      OpeningFault mediaType parameters archive random e

section

variable {mediaType : String} {parameters : Parameters} {archive : Traced α}
  {random : TracedRandom ρ} {refusal : Refusal (Traced α) (TracedRandom ρ)}

theorem openingFault_of_digest {digest : PasswordDigest}
    (h : openWithDigest mediaType parameters archive random digest = .error refusal) :
    OpeningFault mediaType parameters archive random refusal.error := by
  have hopens := opensWithDigest mediaType parameters archive random digest
  rw [h] at hopens
  by_cases hm : Blank mediaType
  · cases hopens.blank hm
    exact .noMediaType hm
  · by_cases ha : digest.algorithm = parameters.startKey
    · rcases (hopens.proceeds hm ha).failed with hf | hw
      · exact .undrawn hf
      · exact .unwritten hw
    · cases hopens.mismatched hm ha
      exact .mismatch ha

/-- An `Unopened` package was refused for one of these reasons. -/
theorem Unopened.openingFault (h : Unopened mediaType parameters archive random refusal) :
    OpeningFault mediaType parameters archive random refusal.error := by
  cases h with
  | withDigest h => exact openingFault_of_digest h
  | @withPassword password _ h =>
      by_cases hp : password = []
      · subst hp
        rw [openWithPassword_nil] at h
        cases h
        exact .noPassword
      · rw [openWithPassword_of_ne_nil mediaType parameters archive random hp] at h
        exact openingFault_of_digest h

end

end ProtectedWriter

/-! ## What a call fails for -/

/-- Whether an error says that a cipher, or what it was to be set up with, is of no use: a `cipher`
or a `configuration` error. -/
def Error.isSetup : Error → Bool
  | cipher _ | configuration _ => true
  | _ => false

/-- `checkPath` refuses a path with a `FormatFault`. -/
theorem exists_format_of_checkPath {written : List String} {path : String} {e : Error}
    (h : checkPath written path = .error e) : ∃ fault, e = .format fault := by
  unfold checkPath at h
  split at h
  · cases h; exact ⟨_, rfl⟩
  · split at h
    · cases h; exact ⟨_, rfl⟩
    · split at h
      · cases h; exact ⟨_, rfl⟩
      · cases h

/-- A `Redraw` fails for want of a fresh vector, or because one of its draws fails. -/
theorem Redraw.failed {used : List Bytes} {n limit : Nat} {ds : List Draw} {e : Error}
    (h : Redraw used n limit ds (.error e)) :
    e = .random (.noFreshVector ProtectedWriter.maxAttempts) ∨ ∃ d ∈ ds, d.result = .error e := by
  cases h with
  | exhausted => exact .inl rfl
  | vectorFailed => exact .inr ⟨_, List.mem_append_right _ (List.mem_singleton_self _), rfl⟩
  | fillerFailed =>
      exact .inr ⟨_, List.mem_append_right _ (List.mem_cons_of_mem _ (List.mem_singleton_self _)),
        rfl⟩

namespace ProtectedWriter

variable {α ρ : Type} [Archive α] [RandomSource ρ]

/-- Where the error of a call comes from. -/
inductive Turn.Cause (t : Turn (Traced α) (RecordedRandom ρ)) : Error → Prop
  /-- The package is complete, or was given up. -/
  | ended {e : Error} (h : t.before.refusal? = some e) : Cause t e
  /-- The path may not be used. -/
  | path (fault : FormatFault) : Cause t (.format fault)
  /-- Every vector that was drawn had been used. -/
  | unfresh : Cause t (.random (.noFreshVector maxAttempts))
  | draw {d : Draw} {e : Error} (hd : d ∈ t.draws) (he : d.result = .error e) : Cause t e
  | archive {made : Made} {e : Error} (hm : made ∈ t.calls) (he : made.failure = some e) : Cause t e

/-- Every error of a turn has a `Turn.Cause`, if the key fits the cipher. -/
theorem Turn.cause {t : Turn (Traced α) (RecordedRandom ρ)} {k : Cipher.RoundKeys}
    (hk : Cipher.RoundKeys.ofBytes? t.before.key.bytes = some k) {e : Error}
    (h : t.result = .error e) : t.Cause e := by
  -- an error that the archive has given is the failure of the last call that was made
  have lost {c : Archive.Call} (made : List Made)
      (hc : t.after.archive.calls = t.before.archive.calls ++ (made ++ [⟨c, some e⟩])) :
      t.Cause e := by
    have hmem : (⟨c, some e⟩ : Made) ∈ t.calls := by simp [calls_eq hc]
    exact .archive hmem rfl
  have hs := t.step
  rw [h] at hs
  generalize hq : t.request = q, hw : t.after = w' at hs
  cases hs with
  | refused hr => exact .ended hr
  | rejected _ hp =>
      obtain ⟨fault, rfl⟩ := exists_format_of_checkPath hp
      exact .path fault
  | unencrypted hp hc he =>
      have ha : t.admitted := by
        rw [admitted, hq]
        exact admits_write_iff.mpr ⟨hp, hc⟩
      obtain ⟨outcome, hr, ho⟩ := Turn.redraw hk ha hq
      rw [he] at ho
      cases outcome with
      | ok p => cases ho
      | error e' =>
          cases ho
          rcases hr.failed with rfl | ⟨d, hd, hde⟩
          · exact .unfresh
          · exact .draw hd hde
  | encryptedLost _ _ _ ha | clearLost _ _ ha | manifestLost _ ha =>
      have hc := Traced.calls_of_writeEntry ha
      exact lost [] (by rw [hw]; exact hc)
  | unfinished _ ha hf =>
      have hc := Traced.calls_of_finish hf
      rw [Traced.calls_of_writeEntry ha, List.append_assoc] at hc
      exact lost [_] (by rw [hw]; exact hc)

/-- A `Turn.Cause` that is about a cipher or its set-up was given by the source or by the
archive. -/
theorem Turn.Cause.outside {t : Turn (Traced α) (RecordedRandom ρ)} {e : Error} (h : t.Cause e)
    (he : e.isSetup = true) :
    (∃ d ∈ t.draws, d.result = .error e) ∨ ∃ made ∈ t.calls, made.failure = some e := by
  cases h with
  | ended h =>
      unfold refusal? at h
      split at h <;> cases h <;> cases he
  | path | unfresh => cases he
  | draw hd hr => exact .inl ⟨_, hd, hr⟩
  | archive hm hf => exact .inr ⟨_, hm, hf⟩

/-! ## The cipher that is named -/

/-- Every record of a writer has the cipher of its parameters as its `algorithm`. -/
theorem Step.algorithm {w w' : ProtectedWriter α ρ} {q : Request} {result : Except Error Unit}
    (h : Step w q result w')
    (hw : ∀ r ∈ w.records, r.algorithm = w.parameters.keySize.identifier) :
    ∀ r ∈ w'.records, r.algorithm = w'.parameters.keySize.identifier := by
  cases h with
  | @encrypted path mediaType content entry random archive ledger _ _ _ _ hl =>
      rw [eq_of_record hl]
      intro r hr
      simp only [records, List.mem_append, List.mem_singleton] at hr
      rcases hr with hr | rfl
      · exact hw r hr
      · rfl
  | refused | rejected | unencrypted | encryptedLost | clearLost | clear | manifestLost
  | unfinished | closed => exact hw

theorem Opened.algorithm {mediaType : String} {parameters : Parameters} {archive : α} {random : ρ}
    {w : ProtectedWriter α ρ} (h : Opened mediaType parameters archive random w)
    (qs : List Request) :
    ∀ r ∈ (w.run qs).records, r.algorithm = parameters.keySize.identifier := by
  have hnone : ∀ r ∈ w.records, r.algorithm = w.parameters.keySize.identifier := by
    obtain ⟨_, _, _, _, _, -, -, rfl⟩ := h.exists_eq
    simp [records, Ledger.empty]
  have hrun := run_induction (P := fun v : ProtectedWriter α ρ =>
    ∀ r ∈ v.records, r.algorithm = v.parameters.keySize.identifier) Step.algorithm hnone qs
  rwa [(run_frame w qs).2.1, h.parameters_eq] at hrun

/-- The key of an opened writer has the size that its parameters ask for, and keeps it. -/
theorem Opened.length_key {mediaType : String} {parameters : Parameters} {archive : α} {random : ρ}
    {w : ProtectedWriter α ρ} (h : Opened mediaType parameters archive random w)
    (qs : List Request) : (w.run qs).key.bytes.length = parameters.keySize.bytes := by
  rw [(run_frame w qs).1]
  obtain ⟨_, _, _, _, _, hkey, -, rfl⟩ := h.exists_eq
  exact (packageKey_eq_ok hkey).2

end ProtectedWriter

/-- The entry that `Lists` a ciphertext `NamesCipher`, if its descriptor does. -/
theorem Lists.namesCipher {key : PackageKey} {v : Cipher.KeySize} {e : Entry}
    {entry : String × Bytes × Zip.Method} (h : Lists (.ofKey v key.bytes) e entry)
    (hv : key.variant? = some v)
    (hd : ∀ d, e.encryption = some d → d.algorithm = v.identifier
      ∧ d.keySize = UInt64.ofNat v.bytes) : NamesCipher key e entry := by
  cases h with
  | encrypted he =>
      obtain ⟨ha, hs⟩ := hd _ he
      have hn := PackageKey.names_identifier hv
      rw [← ha] at hn
      exact .encrypted he hv ha hn hs (encryptPadded_of_variant hv _ _) rfl
  | clear he => exact .clear he

namespace Parameters

open ProtectedWriter (Unopened OpeningFault Opened Request)

/-! ## What parameters are good for -/

/-- What parameters keep to in the calls `qs` on a writer that was opened with them. -/
structure HoldsOver {α ρ : Type} [Archive α] [RandomSource ρ] (p : Parameters)
    (w : ProtectedWriter (Traced α) (RecordedRandom ρ)) (qs : List Request) : Prop where
  fixed : (w.run qs).parameters = p
  /-- The key has the size that was asked for. -/
  fits : (w.run qs).key.bytes.length = p.keySize.bytes
  /-- No call fails for the cipher or the parameters, unless the source or the archive says so. -/
  outside : ∀ t ∈ w.turns qs, ∀ e, t.result = .error e → e.isSetup = true →
    (∃ d ∈ t.draws, d.result = .error e) ∨ ∃ made ∈ t.calls, made.failure = some e
  /-- The manifest names the cipher that each ciphertext in the archive was made with
  (`NamesCipher`), -/
  named : List.Forall₂ (NamesCipher (w.run qs).key) (w.run qs).manifest.entries
    (acceptedEntries (w.run qs).archive.calls)
  /-- and so does each record. -/
  recorded : ∀ r ∈ (w.run qs).records, ∃ v, (w.run qs).key.variant? = some v
    ∧ r.algorithm = v.identifier ∧ Cipher.Names r.algorithm (w.run qs).key.bytes.length

/-- Parameters for which nothing fails once `Draft.build` has given them. -/
structure Dependable (p : Parameters) : Prop where
  /-- For every digest and every salt of the right size `deriveKey` gives a key of the right
  size. -/
  derived : ∀ digest (salt : SizedBytes p.saltSize.toNat),
    ∃ key, deriveKey digest salt.val p.iterations p.keySize.bytes = .ok key
      ∧ key.bytes.length = p.keySize.bytes
  opening : ∀ {α ρ : Type} [Archive α] [RandomSource ρ] (mediaType : String) (archive : Traced α)
    (random : TracedRandom ρ) (refusal : Refusal (Traced α) (TracedRandom ρ)),
    Unopened mediaType p archive random refusal →
      OpeningFault mediaType p archive random refusal.error
  run : ∀ {α ρ : Type} [Archive α] [RandomSource ρ] (mediaType : String) (archive : α) (random : ρ)
    (w : ProtectedWriter (Traced α) (RecordedRandom ρ)),
    Opened mediaType p ⟨archive, []⟩ ⟨random, []⟩ w → ∀ qs, HoldsOver p w qs
  /-- Keys of 16, 24 and 32 bytes have the identifier of their own variant each, -/
  named : Cipher.Names p.keySize.identifier p.keySize.bytes
  /-- and that of the largest variant stands for no other one. -/
  largest : p.keySize.identifier = "http://www.w3.org/2001/04/xmlenc#aes256-cbc"
    ↔ p.keySize.bytes = 32

theorem holdsOver_of_opened {α ρ : Type} [Archive α] [RandomSource ρ] {mediaType : String}
    {p : Parameters} {archive : α} {random : ρ} {w : ProtectedWriter (Traced α) (RecordedRandom ρ)}
    (h : Opened mediaType p ⟨archive, []⟩ ⟨random, []⟩ w) (qs : List Request) :
    HoldsOver p w qs := by
  have hlength := h.length_key qs
  have hfixed : (w.run qs).parameters = p :=
    (ProtectedWriter.run_frame w qs).2.1.trans h.parameters_eq
  have hv : (w.run qs).key.variant? = some p.keySize := by
    rw [PackageKey.variant?, hlength, Cipher.KeySize.ofBytes?_bytes]
  have hb := (ProtectedWriter.Books.of_opened h).run h.roundKeys qs
  refine ⟨hfixed, hlength, ?_, ?_, ?_⟩
  · intro t ht e he hsetup
    obtain ⟨qs₁, -, -, hbefore⟩ := ProtectedWriter.exists_run_of_mem_turns ht
    have hkey : Cipher.RoundKeys.ofBytes? t.before.key.bytes
        = some (.ofKey p.keySize w.key.bytes) := by
      rw [hbefore, (ProtectedWriter.run_frame w qs₁).1, h.roundKeys]
    exact (t.cause hkey he).outside hsetup
  · have hdescriptor : ∀ e ∈ (w.run qs).manifest.entries, ∀ d, e.encryption = some d →
        d.algorithm = p.keySize.identifier ∧ d.keySize = UInt64.ofNat p.keySize.bytes := by
      intro e he d hd
      obtain ⟨r, hr, rfl⟩ := hb.exists_record he (by simp [hd])
      cases hd
      refine ⟨h.algorithm qs r hr, ?_⟩
      rw [← hfixed]
      rfl
    have hlisted := hb.listed
    rw [← (ProtectedWriter.run_frame w qs).1] at hlisted
    exact (List.forall₂_and_left _ _ |>.mpr ⟨hdescriptor, hlisted⟩).imp
      fun _ _ he => he.2.namesCipher hv he.1
  · intro r hr
    have ha := h.algorithm qs r hr
    refine ⟨_, hv, ha, ?_⟩
    rw [ha]
    exact PackageKey.names_identifier hv

/-- All parameters are dependable, since they were checked when they were built. -/
theorem dependable (p : Parameters) : Dependable p where
  derived digest salt := by
    obtain ⟨key, hkey⟩ := ProtectedWriter.exists_packageKey p digest salt
    exact ⟨key, ProtectedWriter.packageKey_eq_ok hkey⟩
  opening _ _ _ _ h := h.openingFault
  run _ _ _ _ h qs := holdsOver_of_opened h qs
  named := p.keySize.names_identifier
  largest := p.keySize.identifier_eq_iff

/-- **Parameters are checked once.**  Settings give parameters exactly if the last choices of the
size of the key, of the iterations and of the size of the salt can be used; the parameters are
those choices, and neither opening a package with them nor any call on it fails for them. -/
theorem ofSettings_dependable :
    (∀ settings,
        ((∃ p, ofSettings settings = .ok p)
          ↔ lastChoice Setting.keySize? settings 32 ∈ ([16, 24, 32] : List UInt64)
            ∧ 1 ≤ lastChoice Setting.iterations? settings 100000
            ∧ 8 ≤ lastChoice Setting.saltSize? settings 32)
          ∧ ∀ p, ofSettings settings = .ok p → p.draft = chosen settings {} ∧ Dependable p)
      ∧ Dependable standard := by
  refine ⟨fun settings => ⟨?_, fun p h => ⟨?_, p.dependable⟩⟩, standard.dependable⟩
  · rw [ofSettings, foldl_set]
    exact Draft.exists_build_iff _
  · rw [ofSettings, foldl_set] at h
    exact draft_of_build h

/-- Settings that correct themselves, and a package that was opened with what they give. -/
theorem ofSettings_dependable_least :
    ∃ p w, ofSettings [.keySize 17, .startKey .sha1, .iterations 0, .keySize 16, .iterations 1,
        .saltSize 8, .checksum .content] = .ok p
      ∧ Opened "text" p (⟨⟨9⟩, []⟩ : Traced Shelf) (⟨⟨0⟩, []⟩ : RecordedRandom Counter) w
      ∧ HoldsOver p w [.write "a" "x" [1, 2] true, .write "b" "y" [3] false, .close] := by
  obtain ⟨w, hw⟩ := exists_eq_ok_of_isOk (x := (ProtectedWriter.openWithPassword "text" .least
    (⟨⟨9⟩, []⟩ : Traced Shelf) (⟨⟨0⟩, []⟩ : RecordedRandom Counter) [112]).1) (by decide +kernel)
  have hopened := Opened.withPassword hw
  have hp : ofSettings [.keySize 17, .startKey .sha1, .iterations 0, .keySize 16, .iterations 1,
      .saltSize 8, .checksum .content] = .ok .least := by
    decide +kernel
  have hdependable := ((ofSettings_dependable.1 _).2 .least hp).2
  exact ⟨.least, w, hp, hopened, hdependable.run _ _ _ _ hopened _⟩

end Parameters

end OpenDocument
