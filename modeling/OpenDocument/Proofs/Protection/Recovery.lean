import OpenDocument.Proofs.Deflate.Streams
import OpenDocument.Proofs.Manifest
import OpenDocument.Proofs.Protection.Bookkeeping
import OpenDocument.Proofs.Protection.Framing
import OpenDocument.Protection.Recovery

/-!
# OpenDocument.Proofs.Protection.Recovery

A complete package gives back what was protected in it.  The way back needs the password, the
manifest and the payload under the path of an entry, all three as the log of the archive has them:
the document of the manifest is read again, the key is derived again from the descriptor, and the
payload is decrypted and inflated.  `recovery_of_opened` follows this way for every entry of every
run; a `Recovery` also pins what a reader of the manifest goes by, the identifier of the cipher
(`Cipher.Names`) and of the hash function (`Hash.Algorithm.NamedBy`), and the checksum with its own
(`ChecksumKind.Attests`).
-/

namespace OpenDocument

open Archive (Made Traced failure?)

/-! ## What an archive holds -/

/-- What the accepted writes of a log have put under a path, each with its `Zip.Method`. -/
def archived (calls : List Made) (path : String) : List (Bytes × Zip.Method) :=
  calls.filterMap fun
    | ⟨.write p data method, none⟩ => if p = path then some (data, method) else none
    | _ => none

theorem archived_append (calls calls' : List Made) (path : String) :
    archived (calls ++ calls') path = archived calls path ++ archived calls' path :=
  List.filterMap_append

/-- A write under one path puts nothing under another. -/
theorem archived_write_of_ne {calls calls' : List Made} {path p : String} {data : Bytes}
    {method : Zip.Method} {failure : Option Error} (hp : p ≠ path)
    (hc : calls' = calls ++ [⟨.write p data method, failure⟩]) :
    archived calls' path = archived calls path := by
  rw [hc, archived_append]
  cases failure <;> simp [archived, hp]

/-- Under the path of an entry, `archived` finds what is among the `acceptedEntries`. -/
theorem archived_eq_map (calls : List Made) {path : String}
    (h : Vocabulary.isReserved path = false) :
    archived calls path
      = ((acceptedEntries calls).filter fun a => a.1 == path).map Prod.snd := by
  induction calls with
  | nil => rfl
  | cons c calls ih =>
      rw [← List.singleton_append, archived_append, acceptedEntries_append, List.filter_append,
        List.map_append, ih]
      congr 1
      obtain ⟨call, failure⟩ := c
      cases call with
      | finish => rfl
      | write p data method =>
          cases failure with
          | some e => rfl
          | none =>
              by_cases hp : p = path
              · subst hp
                simp [archived, acceptedEntries, h]
              · cases hr : Vocabulary.isReserved p <;> simp [archived, acceptedEntries, hp, hr]

/-- Of a list with distinct keys, one element is all there is under its key. -/
theorem filter_fst_eq_singleton {β : Type} {as : List (String × β)} (hd : (as.map Prod.fst).Nodup)
    {a : String × β} (ha : a ∈ as) : as.filter (fun b => b.1 == a.1) = [a] := by
  induction as with
  | nil => cases ha
  | cons b as ih =>
      rw [List.map_cons, List.nodup_cons] at hd
      by_cases hb : b.1 = a.1
      · have hnone : as.filter (fun b => b.1 == a.1) = [] := by
          rw [List.filter_eq_nil_iff]
          intro c hc hca
          exact hd.1 (hb ▸ beq_iff_eq.mp hca ▸ List.mem_map_of_mem hc)
        have hab : a = b := by
          rcases List.mem_cons.mp ha with hab | ha
          · exact hab
          · exact absurd (hb ▸ List.mem_map_of_mem ha) hd.1
        rw [List.filter_cons, if_pos (beq_iff_eq.mpr hb), hnone, hab]
      · have hmem : a ∈ as := by
          rcases List.mem_cons.mp ha with rfl | ha
          · exact absurd rfl hb
          · exact ha
        rw [List.filter_cons, if_neg (by simpa using hb), ih hd.2 hmem]

theorem Manifest.find?_of_mem {m : Manifest} (hd : m.paths.Nodup) {e : Entry}
    (he : e ∈ m.entries) : m.find? e.path = some e := by
  rw [find?]
  cases hf : m.entries.find? fun e' => e'.path == e.path with
  | none => simpa using List.find?_eq_none.mp hf e he
  | some e' =>
      have hp : e'.path = e.path := by simpa using List.find?_some hf
      rw [List.inj_on_of_nodup_map hd (List.mem_of_find?_eq_some hf) he hp]

/-! ## The way back -/

theorem Cipher.KeySize.toNat_bytes (s : Cipher.KeySize) :
    (UInt64.ofNat s.bytes).toNat = s.bytes := by
  cases s <;> rfl

/-- `Descriptor.packageKey` finds the key of a package again, from the password and what the
descriptor says of it. -/
theorem Descriptor.packageKey_eq_ok {d : Descriptor} {password : Bytes} {digest : PasswordDigest}
    {parameters : Parameters} {key : PackageKey}
    (hp : (hashPassword password parameters.startKey).1 = .ok digest)
    (hk : deriveKey digest d.salt parameters.iterations parameters.keySize.bytes = .ok key)
    (hs : d.startKeyGeneration = parameters.startKey.startKeyName)
    (hi : d.iterationCount = parameters.iterations)
    (hz : d.keySize = UInt64.ofNat parameters.keySize.bytes) :
    d.packageKey password = .ok key := by
  have hsize : d.keySize.toNat = parameters.keySize.bytes := by
    rw [hz, Cipher.KeySize.toNat_bytes]
  rw [packageKey, hs, Hash.Algorithm.ofStartKeyName?_startKeyName]
  simp only [hp, hi, hsize]
  exact hk

/-- The way from a password and the log of an archive back to the content of one entry: `manifest`,
`entry`, `descriptor`, `key`, and the payload that is decrypted and inflated with them. -/
structure Recovery (parameters : Parameters) (password : Bytes) (calls : List Made)
    (path mediaType : String) (content : Bytes) where
  document : String
  manifest : Manifest
  entry : Entry
  descriptor : Descriptor
  key : PackageKey
  payload : Bytes
  compressed : Bytes
  /-- The archive holds one manifest under `manifestPath`, and it can be read. -/
  published : archived calls Vocabulary.manifestPath = [(document.toUTF8.toList, .deflated)]
  parsed : Manifest.parse document = .ok manifest
  found : manifest.find? path = some entry
  encryption : entry.encryption = some descriptor
  /-- The archive holds one `stored` payload under the path, and it leads to the content. -/
  held : archived calls path = [(payload, .stored)]
  derived : descriptor.packageKey password = .ok key
  decrypted : decryptEntry key descriptor.initialisationVector payload = .ok compressed
  inflated : Deflate.inflate compressed = .ok (content, [])
  size : entry.size = some (UInt64.ofNat content.length)
  compressedSize : descriptor.compressedSize = some (UInt64.ofNat compressed.length)
  /-- No content in memory is so long that a size would be cut off. -/
  exactSizes : content.length < 2 ^ 63 → entry.size.map UInt64.toNat = some content.length
    ∧ descriptor.compressedSize.map UInt64.toNat = some compressed.length
  mediaType_eq : entry.mediaType = mediaType
  startKey : parameters.startKey.NamedBy descriptor.startKeyGeneration
  /-- The cipher that `descriptor.algorithm` names is the one for keys of this length
  (`Cipher.Names`). -/
  algorithm : Cipher.Names descriptor.algorithm key.bytes.length
  keySize : descriptor.keySize.toNat = parameters.keySize.bytes
  keyLength : key.bytes.length = parameters.keySize.bytes
  /-- The checksum is the digest that the parameters ask for, and is named as such
  (`ChecksumKind.Attests`). -/
  checksum : parameters.checksum.Attests content compressed descriptor.checksumType
    descriptor.checksum

/-- By way of a `Recovery`, `Descriptor.recover` gives the content. -/
theorem Recovery.recover_eq_ok {parameters : Parameters} {password : Bytes} {calls : List Made}
    {path mediaType : String} {content : Bytes}
    (r : Recovery parameters password calls path mediaType content) :
    r.descriptor.recover password r.payload = .ok content := by
  rw [Descriptor.recover, r.derived]
  simp only [recoverContent, r.decrypted, r.inflated]

theorem toNat_length_compress {content : Bytes} (h : content.length < 2 ^ 63) :
    (UInt64.ofNat (Deflate.compress content).length).toNat = (Deflate.compress content).length := by
  have hle := Deflate.length_compress_le content
  rw [Deflate.maxStored] at hle
  exact UInt64.toNat_ofNat_of_lt' (by rw [UInt64.size]; omega)

namespace ProtectedWriter

variable {α ρ : Type}

/-! ## Sealed entries -/

/-- What the archive gets of a content sealed with a `Pair`: the ciphertext of `sealEntry`. -/
def sealedPayload (k : Cipher.RoundKeys) (content : Bytes) (p : Pair) : Bytes :=
  Cipher.encryptBytes k p.vector (Cipher.pad (Deflate.compress content) p.filler)

/-- What the manifest says of a content sealed with a `Pair`. -/
def sealedEntry (w : ProtectedWriter α ρ) (k : Cipher.RoundKeys) (path mediaType : String)
    (content : Bytes) (p : Pair) : Entry :=
  w.ledger.entry (w.recordOf path mediaType
    (sealEntry k (Deflate.compress content) (Summary.of content) w.parameters p.vector p.filler))

theorem sealedEntry_congr {w w' : ProtectedWriter α ρ} (hp : w'.parameters = w.parameters)
    (hs : w'.salt = w.salt) (k : Cipher.RoundKeys) (path mediaType : String) (content : Bytes)
    (p : Pair) : w'.sealedEntry k path mediaType content p
      = w.sealedEntry k path mediaType content p := by
  have hp' : w'.ledger.parameters = w.ledger.parameters := hp
  have hs' : w'.ledger.salt = w.ledger.salt := hs
  simp only [sealedEntry, Ledger.entry, Ledger.descriptor, recordOf, hp, hp', hs']

variable [Archive α] [RandomSource ρ]

/-- An encrypted write that succeeds adds a `sealedEntry` to the manifest and a `sealedPayload` to
the log. -/
theorem Step.exists_sealed {w w' : ProtectedWriter (Traced α) ρ} {k : Cipher.RoundKeys}
    (hk : Cipher.RoundKeys.ofBytes? w.key.bytes = some k) {path mediaType : String}
    {content : Bytes} (h : Step w (.write path mediaType content true) (.ok ()) w') :
    ∃ p : Pair, p.Fits (fillerLength (Deflate.compress content))
      ∧ w.sealedEntry k path mediaType content p ∈ w'.manifest.entries
      ∧ (path, sealedPayload k content p, .stored) ∈ acceptedEntries w'.archive.calls := by
  cases h with
  | @encrypted _ _ _ entry random archive ledger hw hp he ha hl =>
      obtain ⟨p, hfit, -, rfl⟩ := encryptFresh_eq_ok hk he
      have hpath := (entryPath_of_checkPath hp).1.isReserved_eq_false
      refine ⟨p, hfit, ?_, ?_⟩
      · rw [manifest, eq_of_record hl, Manifest.entries_push]
        exact List.mem_append_right _ (List.mem_singleton_self _)
      · rw [Traced.calls_of_writeEntry ha, acceptedEntries_append]
        refine List.mem_append_right _ ?_
        simp [acceptedEntries, failure?, hpath, sealedPayload]

/-- A `Step` takes nothing back from the manifest or from the log of the archive. -/
theorem Step.grows {w w' : ProtectedWriter (Traced α) ρ} {q : Request}
    {result : Except Error Unit} (h : Step w q result w') :
    w.manifest.entries <+: w'.manifest.entries ∧ w.archive.calls <+: w'.archive.calls := by
  cases h with
  | refused | rejected | unencrypted => exact ⟨List.prefix_rfl, List.prefix_rfl⟩
  | encryptedLost hw hp he ha =>
      exact ⟨List.prefix_rfl, _, (Traced.calls_of_writeEntry ha).symm⟩
  | encrypted hw hp he ha hl =>
      rw [manifest, manifest, eq_of_record hl]
      exact ⟨List.prefix_append .., _, (Traced.calls_of_writeEntry ha).symm⟩
  | clearLost hw hp ha => exact ⟨List.prefix_rfl, _, (Traced.calls_of_writeEntry ha).symm⟩
  | clear hw hp ha =>
      exact ⟨List.prefix_append .., _, (Traced.calls_of_writeEntry ha).symm⟩
  | manifestLost hw ha => exact ⟨List.prefix_rfl, _, (Traced.calls_of_writeEntry ha).symm⟩
  | unfinished hw ha hf | closed hw ha hf =>
      refine ⟨List.prefix_rfl, ?_⟩
      have hwrite : w.archive.calls <+: _ := ⟨_, (Traced.calls_of_writeEntry ha).symm⟩
      exact hwrite.trans ⟨_, (Traced.calls_of_finish hf).symm⟩

/-- Nothing is taken back during a `run`. -/
theorem run_grows (w : ProtectedWriter (Traced α) ρ) (qs : List Request) :
    w.manifest.entries <+: (w.run qs).manifest.entries
      ∧ w.archive.calls <+: (w.run qs).archive.calls := by
  refine run_induction (P := fun v => w.manifest.entries <+: v.manifest.entries
    ∧ w.archive.calls <+: v.archive.calls) ?_ ⟨List.prefix_rfl, List.prefix_rfl⟩ qs
  intro v q result v' hs hv
  obtain ⟨hm, hc⟩ := hs.grows
  exact ⟨hv.1.trans hm, hv.2.trans hc⟩

/-! ## Published manifests -/

/-- Nothing is `archived` under `manifestPath` while the package is being written, and exactly its
manifest when it is complete. -/
structure Published (w : ProtectedWriter (Traced α) ρ) : Prop where
  writing : w.phase = .writing → archived w.archive.calls Vocabulary.manifestPath = []
  closed : w.phase = .closed → archived w.archive.calls Vocabulary.manifestPath
    = [(w.manifest.toXml.toUTF8.toList, .deflated)]

namespace Published

variable {w w' : ProtectedWriter (Traced α) ρ}

/-- Every `Step` keeps a writer `Published`. -/
theorem step {q : Request} {result : Except Error Unit} (hs : Step w q result w')
    (h : Published w) : Published w' := by
  cases hs with
  | refused | rejected => exact h
  | unencrypted | encryptedLost | clearLost | manifestLost | unfinished =>
      constructor <;> intro hphase <;> cases hphase
  | encrypted hw hp he ha hl =>
      have hpath := (entryPath_of_checkPath hp).1.ne_manifest
      constructor
      · intro _
        rw [archived_write_of_ne hpath (Traced.calls_of_writeEntry ha), h.writing hw]
      · intro hphase
        cases hw.symm.trans hphase
  | clear hw hp ha =>
      have hpath := (entryPath_of_checkPath hp).1.ne_manifest
      constructor
      · intro _
        rw [archived_write_of_ne hpath (Traced.calls_of_writeEntry ha), h.writing hw]
      · intro hphase
        cases hw.symm.trans hphase
  | closed hw ha hf =>
      constructor
      · intro hphase
        cases hphase
      · intro _
        rw [Traced.calls_of_finish hf, Traced.calls_of_writeEntry ha, archived_append,
          archived_append, h.writing hw]
        simp [archived, failure?, manifest, Ledger.toXml]

theorem of_opened {mediaType : String} {parameters : Parameters} {archive : α} {random : ρ}
    (h : Opened mediaType parameters ⟨archive, []⟩ random w) : Published w := by
  obtain ⟨digest, salt, random', key, archive', -, ha, rfl⟩ := h.exists_eq
  have hpath : Vocabulary.mimetypePath ≠ Vocabulary.manifestPath := by decide
  constructor
  · intro _
    rw [archived_write_of_ne hpath (Traced.calls_of_writeEntry ha)]
    rfl
  · intro hphase
    cases hphase

theorem run (h : Published w) (qs : List Request) : Published (w.run qs) :=
  run_induction step h qs

end Published

theorem Step.phase_of_closed {w w' : ProtectedWriter α ρ} (h : Step w .close (.ok ()) w') :
    w'.phase = .closed := by
  cases h
  rfl

/-- A `run` with a call that closes the package ends in the phase `closed`. -/
theorem phase_run_of_closed {w : ProtectedWriter α ρ} {qs : List Request} {c : Turn α ρ}
    (hc : c ∈ w.turns qs) (hq : c.request = .close) (hr : c.result = .ok ()) :
    (w.run qs).phase = .closed := by
  obtain ⟨qs₁, qs₂, rfl, hb⟩ := exists_run_of_mem_turns hc
  have hafter : c.after.phase = .closed := by
    have hs := c.step
    rw [hq, hr] at hs
    exact hs.phase_of_closed
  have hrun : w.run (qs₁ ++ c.request :: qs₂) = c.after.run qs₂ := by
    rw [run_append, run_cons, ← hb, Turn.after]
  rw [hrun, run_of_phase_ne (by rw [hafter]; decide), hafter]

/-! ## Recovering -/

/-- A writer that was opened by `openWithPassword` with a password, or by `openWithDigest` with the
digest of it. -/
inductive OpenedFor (password : Bytes) (mediaType : String) (parameters : Parameters)
    (archive : α) (random : ρ) : ProtectedWriter α ρ → Prop
  | withPassword {w : ProtectedWriter α ρ}
      (h : (openWithPassword mediaType parameters archive random password).1 = .ok w) :
      OpenedFor password mediaType parameters archive random w
  | withDigest {algorithm : Hash.Algorithm} {digest : PasswordDigest} {w : ProtectedWriter α ρ}
      (hd : (hashPassword password algorithm).1 = .ok digest)
      (h : openWithDigest mediaType parameters archive random digest = .ok w) :
      OpenedFor password mediaType parameters archive random w

namespace OpenedFor

variable {password : Bytes} {mediaType : String} {parameters : Parameters} {archive : α}
  {random : ρ} {w : ProtectedWriter α ρ}

theorem opened (h : OpenedFor password mediaType parameters archive random w) :
    Opened mediaType parameters archive random w := by
  cases h with
  | withPassword h => exact .withPassword h
  | withDigest hd h => exact .withDigest h

/-- The digest that a writer was `OpenedFor` is the one that its parameters ask for. -/
theorem exists_digest (h : OpenedFor password mediaType parameters archive random w) :
    ∃ digest, (hashPassword password parameters.startKey).1 = .ok digest
      ∧ openWithDigest mediaType parameters archive random digest = .ok w := by
  cases h with
  | withPassword h => exact openWithPassword_eq_ok h
  | @withDigest algorithm digest _ hd h =>
      obtain ⟨-, -, -, -, ha, -⟩ := openWithDigest_eq_ok h
      have halg : algorithm = parameters.startKey := by
        rw [← ha]
        unfold hashPassword at hd
        split at hd
        · cases hd
        · cases hd; rfl
      exact ⟨digest, halg ▸ hd, h⟩

/-- Who has the password and the parameters of a package finds its key by `deriveKey`. -/
theorem exists_deriveKey (h : OpenedFor password mediaType parameters archive random w) :
    ∃ digest, (hashPassword password parameters.startKey).1 = .ok digest
      ∧ deriveKey digest w.salt parameters.iterations parameters.keySize.bytes = .ok w.key
      ∧ w.key.bytes.length = parameters.keySize.bytes := by
  obtain ⟨digest, hd, ho⟩ := h.exists_digest
  obtain ⟨salt, random', key, archive', -, -, hk, -, rfl⟩ := openWithDigest_eq_ok ho
  exact ⟨digest, hd, ProtectedWriter.packageKey_eq_ok hk⟩

end OpenedFor

section

variable {k : Cipher.RoundKeys} {w : ProtectedWriter (Traced α) ρ}

omit [Archive α] [RandomSource ρ] in
/-- The paths of the manifest are the paths in the archive. -/
theorem Books.paths_eq (h : Books k w) :
    (acceptedEntries w.archive.calls).map Prod.fst = w.manifest.paths := by
  have hpaths : List.Forall₂ (· = ·) w.manifest.paths
      ((acceptedEntries w.archive.calls).map Prod.fst) := by
    rw [Manifest.paths, List.forall₂_map_left_iff, List.forall₂_map_right_iff]
    refine h.listed.imp ?_
    intro e a hl
    cases hl <;> rfl
  rw [List.forall₂_eq_eq_eq] at hpaths
  exact hpaths.symm

omit [Archive α] [RandomSource ρ] in
/-- Under its path, an accepted entry is all that is `archived`. -/
theorem Books.archived_eq (h : Books k w) {a : String × Bytes × Zip.Method}
    (ha : a ∈ acceptedEntries w.archive.calls) : archived w.archive.calls a.1 = [a.2] := by
  have hpath : a.1 ∈ w.manifest.paths := by
    rw [← h.paths_eq]
    exact List.mem_map_of_mem ha
  have hnodup := h.nodup
  rw [← h.paths_eq] at hnodup
  rw [archived_eq_map _ (h.usable a.1 hpath).isReserved_eq_false,
    filter_fst_eq_singleton hnodup ha, List.map_singleton]

omit [Archive α] [RandomSource ρ] in
/-- `Manifest.parse` reads the manifest of a writer in its document. -/
theorem Books.parse_toXml (h : Books k w) :
    Manifest.parse w.manifest.toXml = .ok w.manifest := by
  apply Manifest.parse_toXml
  intro e he hroot
  have hpath : e.path.toList.head? ≠ some '/' :=
    (h.usable e.path (List.mem_map_of_mem he)).relative
  rw [hroot] at hpath
  exact hpath rfl

end

/-- What an encrypted write has listed (`sealedEntry`) and stored (`sealedPayload`) is still there
at the end of the run. -/
theorem exists_sealed_run {k : Cipher.RoundKeys} {w : ProtectedWriter (Traced α) ρ}
    (hk : Cipher.RoundKeys.ofBytes? w.key.bytes = some k) {qs : List Request}
    {t : Turn (Traced α) ρ} (ht : t ∈ w.turns qs) {path mediaType : String} {content : Bytes}
    (hq : t.request = .write path mediaType content true) (hr : t.result = .ok ()) :
    ∃ p : Pair, p.Fits (fillerLength (Deflate.compress content))
      ∧ (w.run qs).sealedEntry k path mediaType content p ∈ (w.run qs).manifest.entries
      ∧ (path, sealedPayload k content p, .stored)
        ∈ acceptedEntries (w.run qs).archive.calls := by
  obtain ⟨qs₁, qs₂, rfl, hb⟩ := exists_run_of_mem_turns ht
  have hkb : Cipher.RoundKeys.ofBytes? t.before.key.bytes = some k := by
    rw [hb, (run_frame w qs₁).1, hk]
  have hstep := t.step
  rw [hq, hr] at hstep
  obtain ⟨p, hfit, hmem, hacc⟩ := hstep.exists_sealed hkb
  -- from here on, the run goes on from the writer that the turn met
  have hrun : w.run (qs₁ ++ t.request :: qs₂) = t.before.run (t.request :: qs₂) := by
    rw [run_append, ← hb]
  obtain ⟨-, hparameters, hsalt, -⟩ := run_frame t.before (t.request :: qs₂)
  obtain ⟨hentries, made, hcalls⟩ := run_grows t.after qs₂
  have hafter : t.before.run (t.request :: qs₂) = t.after.run qs₂ := rfl
  rw [hrun]
  refine ⟨p, hfit, ?_, ?_⟩
  · rw [sealedEntry_congr hparameters hsalt, hafter]
    exact hentries.subset hmem
  · rw [hafter, ← hcalls, acceptedEntries_append]
    exact List.mem_append_left _ hacc

omit [Archive α] [RandomSource ρ] in
/-- What a closed package has listed and stored under a key that fits its password leads back to the
content, by a `Recovery`. -/
theorem recovery_of_sealed {w : ProtectedWriter (Traced α) ρ} {k : Cipher.RoundKeys}
    (hk : Cipher.RoundKeys.ofBytes? w.key.bytes = some k) (hb : Books k w) (hp : Published w)
    (hc : w.phase = .closed) {password : Bytes} {digest : PasswordDigest}
    (hd : (hashPassword password w.parameters.startKey).1 = .ok digest)
    (hkey : deriveKey digest w.salt w.parameters.iterations w.parameters.keySize.bytes
      = .ok w.key)
    (hlength : w.key.bytes.length = w.parameters.keySize.bytes)
    {path mediaType : String} {content : Bytes} {p : Pair}
    (hfit : p.Fits (fillerLength (Deflate.compress content)))
    (hmem : w.sealedEntry k path mediaType content p ∈ w.manifest.entries)
    (hacc : (path, sealedPayload k content p, .stored) ∈ acceptedEntries w.archive.calls) :
    Nonempty (Recovery w.parameters password w.archive.calls path mediaType content) := by
  refine ⟨{
    document := w.manifest.toXml
    manifest := w.manifest
    entry := w.sealedEntry k path mediaType content p
    descriptor := w.ledger.descriptor _
    key := w.key
    payload := sealedPayload k content p
    compressed := Deflate.compress content
    published := hp.closed hc
    parsed := hb.parse_toXml
    found := Manifest.find?_of_mem hb.nodup hmem
    encryption := rfl
    held := hb.archived_eq hacc
    derived := Descriptor.packageKey_eq_ok hd hkey rfl rfl rfl
    decrypted := decryptEntry_sealed hk _ _ hfit.filler
    inflated := Deflate.inflate_compress content
    size := rfl
    compressedSize := rfl
    exactSizes := ?_
    mediaType_eq := rfl
    startKey := w.parameters.startKey.namedBy_startKeyName
    algorithm := ?_
    keySize := Cipher.KeySize.toNat_bytes _
    keyLength := hlength
    checksum := w.parameters.checksum.attests_checksum content _ }⟩
  · intro h
    have hsize : (UInt64.ofNat content.length).toNat = content.length :=
      UInt64.toNat_ofNat_of_lt' (by rw [UInt64.size]; omega)
    exact ⟨congrArg some hsize, congrArg some (toNat_length_compress h)⟩
  · rw [hlength]
    exact w.parameters.keySize.names_identifier

/-- **Every protected entry can be recovered.**  When a package was closed, each content that was
accepted for encryption is found again from the password, the manifest and the payload under its
path. -/
theorem recovery_of_opened {password : Bytes} {packageType : String} {parameters : Parameters}
    {archive : α} {random : ρ} {w : ProtectedWriter (Traced α) ρ}
    (h : OpenedFor password packageType parameters ⟨archive, []⟩ random w) {qs : List Request}
    {c t : Turn (Traced α) ρ} (hc : c ∈ w.turns qs) (hcq : c.request = .close)
    (hcr : c.result = .ok ()) (ht : t ∈ w.turns qs) {path mediaType : String} {content : Bytes}
    (htq : t.request = .write path mediaType content true) (htr : t.result = .ok ()) :
    Nonempty (Recovery parameters password (w.run qs).archive.calls path mediaType content) := by
  obtain ⟨hrunkey, hrunparameters, hrunsalt, -⟩ := run_frame w qs
  have hparameters : (w.run qs).parameters = parameters :=
    hrunparameters.trans h.opened.parameters_eq
  obtain ⟨k, hkeys⟩ : ∃ k, Cipher.RoundKeys.ofBytes? w.key.bytes = some k :=
    ⟨_, h.opened.roundKeys⟩
  have hbooks : Books k (w.run qs) := (Books.of_opened h.opened).run hkeys qs
  have hpublished : Published (w.run qs) := (Published.of_opened h.opened).run qs
  obtain ⟨digest, hdigest, hderive, hlength⟩ := h.exists_deriveKey
  obtain ⟨p, hfit, hmem, hacc⟩ := exists_sealed_run hkeys ht htq htr
  have hrunkeys : Cipher.RoundKeys.ofBytes? (w.run qs).key.bytes = some k := by
    rw [hrunkey, hkeys]
  rw [← hrunkey, ← hrunsalt, ← hparameters] at hderive
  rw [← hrunkey, ← hparameters] at hlength
  rw [← hparameters] at hdigest ⊢
  exact recovery_of_sealed hrunkeys hbooks hpublished (phase_run_of_closed hc hcq hcr) hdigest
    hderive hlength hfit hmem hacc

/-- The content of an entry on a shelf is recovered: a second entry and the closing of the package
go well too. -/
theorem recovery_shelf :
    ∃ w, OpenedFor [112] "text" .least (⟨⟨9⟩, []⟩ : Traced Shelf) (⟨0⟩ : Counter) w
      ∧ Nonempty (Recovery .least [112]
        (w.run [.write "a" "x" [1, 2] true, .write "b" "y" [3] false, .close]).archive.calls
        "a" "x" [1, 2]) := by
  obtain ⟨w, hw, hcheck⟩ := exists_eq_ok_of_any (x := (openWithPassword "text" .least
    (⟨⟨9⟩, []⟩ : Traced Shelf) (⟨0⟩ : Counter) [112]).1) (p := fun w =>
      (w.turns [.write "a" "x" [1, 2] true, .write "b" "y" [3] false, .close]).all fun t =>
        t.result.isOk) (by decide +kernel)
  have hresult : ∀ t ∈ w.turns [.write "a" "x" [1, 2] true, .write "b" "y" [3] false, .close],
      t.result = .ok () := by
    intro t ht
    obtain ⟨u, hu⟩ := exists_eq_ok_of_isOk (List.all_eq_true.mp hcheck t ht)
    exact hu
  refine ⟨w, .withPassword hw, ?_⟩
  have hclose := List.mem_of_getLast? (l := w.turns [.write "a" "x" [1, 2] true,
    .write "b" "y" [3] false, .close]) rfl
  have hwrite := List.mem_of_head? (l := w.turns [.write "a" "x" [1, 2] true,
    .write "b" "y" [3] false, .close]) rfl
  exact recovery_of_opened (.withPassword hw) hclose rfl (hresult _ hclose) hwrite rfl
    (hresult _ hwrite)

end ProtectedWriter

end OpenDocument
