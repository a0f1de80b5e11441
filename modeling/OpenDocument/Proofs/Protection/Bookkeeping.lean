import Mathlib.Data.List.Forall2
import Mathlib.Data.List.Nodup
import OpenDocument.Proofs.Protection.Draws
import OpenDocument.Proofs.Protection.Run

/-!
# OpenDocument.Proofs.Protection.Bookkeeping

The account of a protected package agrees with its archive.  A writer updates four things at
different moments, the log of its archive, the manifest, the records and the set of written paths,
and gives up in between when something fails.  `Books` is the invariant that ties them together in
every reachable state; `Books.step` keeps it through each step.
-/

namespace OpenDocument

open Archive (Made Traced failure?)

/-! ## The account of a ledger -/

/-- The entries of an archive as its log shows them: path, data and method of every write that was
accepted, but for the two that the writer makes in its own name (`Vocabulary.isReserved`). -/
def acceptedEntries (calls : List Made) : List (String × Bytes × Zip.Method) :=
  calls.filterMap fun
    | ⟨.write path data method, none⟩ =>
      if Vocabulary.isReserved path then none else some (path, data, method)
    | _ => none

theorem acceptedEntries_append (calls calls' : List Made) :
    acceptedEntries (calls ++ calls') = acceptedEntries calls ++ acceptedEntries calls' :=
  List.filterMap_append

@[simp] theorem isReserved_mimetypePath :
    Vocabulary.isReserved Vocabulary.mimetypePath = true := by decide

@[simp] theorem isReserved_manifestPath :
    Vocabulary.isReserved Vocabulary.manifestPath = true := by decide

/-- A path that an entry may have: what `checkPath` asks of it, but for its being new. -/
structure EntryPath (path : String) : Prop where
  ne_empty : path ≠ ""
  relative : path.toList.head? ≠ some '/'
  ne_mimetype : path ≠ Vocabulary.mimetypePath
  ne_manifest : path ≠ Vocabulary.manifestPath

theorem entryPath_of_checkPath {written : List String} {path : String}
    (h : checkPath written path = .ok ()) : EntryPath path ∧ path ∉ written := by
  obtain ⟨he, hr, hres, hw⟩ := checkPath_eq_ok_iff.mp h
  simp only [Vocabulary.reservedPaths, List.mem_cons, List.not_mem_nil, or_false, not_or] at hres
  exact ⟨⟨he, hr, hres.1, hres.2⟩, hw⟩

theorem EntryPath.isReserved_eq_false {path : String} (h : EntryPath path) :
    Vocabulary.isReserved path = false := by
  simp [Vocabulary.isReserved, Vocabulary.reservedPaths, h.ne_mimetype, h.ne_manifest]

/-- `Lists k e write`: the entry `e` of a manifest lists the accepted `write`, and has a descriptor
exactly if that stored a ciphertext under `k`. -/
inductive Lists (k : Cipher.RoundKeys) : Entry → String × Bytes × Zip.Method → Prop
  | encrypted {e : Entry} {d : Descriptor} {content filler : Bytes} (hd : e.encryption = some d)
      (hf : filler.length = fillerLength (Deflate.compress content)) :
      Lists k e (e.path, Cipher.encryptBytes k d.initialisationVector
        (Cipher.pad (Deflate.compress content) filler), .stored)
  | clear {e : Entry} {data : Bytes} (hd : e.encryption = none) :
      Lists k e (e.path, data, .deflated)

/-- `r.Describes e`: the record `r` and the entry `e` of the manifest say the same of an encrypted
entry. -/
structure Record.Describes (r : Record) (e : Entry) : Prop where
  path : e.path = r.path
  mediaType : e.mediaType = r.mediaType
  size : e.size = some r.plainLength
  descriptor : ∃ d, e.encryption = some d ∧ d.initialisationVector = r.vector
    ∧ d.checksumType = r.checksumType ∧ d.checksum = r.checksum ∧ d.algorithm = r.algorithm
    ∧ d.compressedSize = some r.compressedLength

theorem Record.describes_entry (l : Ledger) (r : Record) : r.Describes (l.entry r) :=
  ⟨rfl, rfl, rfl, _, rfl, rfl, rfl, rfl, rfl, rfl⟩

/-- The entry of a record, `Ledger.entry`, lists the ciphertext under its vector. -/
theorem Lists.of_record {k : Cipher.RoundKeys} (l : Ledger) (r : Record) {content filler : Bytes}
    (hf : filler.length = fillerLength (Deflate.compress content)) :
    Lists k (l.entry r) (r.path,
      Cipher.encryptBytes k r.vector (Cipher.pad (Deflate.compress content) filler), .stored) :=
  @Lists.encrypted k (l.entry r) (l.descriptor r) content filler rfl hf

theorem Manifest.encrypted_push (m : Manifest) (e : Entry) :
    (m.push e).encrypted = m.encrypted ++ if e.isEncrypted then [e] else [] := by
  rw [encrypted, entries_push, List.filter_append, encrypted]
  cases he : e.isEncrypted <;> simp [he]

theorem Manifest.paths_push (m : Manifest) (e : Entry) :
    (m.push e).paths = m.paths ++ [e.path] := by
  rw [paths, entries_push, List.map_append, List.map_singleton, paths]

namespace ProtectedWriter

variable {α ρ : Type}

/-! ## The invariant -/

/-- What ties the log, the manifest, the records and the written paths of a writer together, in
every state; `k` is its key. -/
structure Books (k : Cipher.RoundKeys) (w : ProtectedWriter (Traced α) ρ) : Prop where
  listed : List.Forall₂ (Lists k) w.manifest.entries (acceptedEntries w.archive.calls)
  written : w.written = w.manifest.paths.reverse
  nodup : w.manifest.paths.Nodup
  usable : ∀ p ∈ w.manifest.paths, EntryPath p
  encrypted : w.manifest.encrypted = w.records.map w.ledger.entry
  clear : ∀ e ∈ w.manifest.entries, e.encryption = none → e.size = none

namespace Books

variable {k : Cipher.RoundKeys} {w w' : ProtectedWriter (Traced α) ρ}

/-- `Books` do not look at what a call adds to the log that is no accepted entry, nor at the rest of
the state. -/
theorem of_same_account (h : Books k w) (hl : w'.ledger = w.ledger) (hw : w'.written = w.written)
    {made : List Made} (hc : w'.archive.calls = w.archive.calls ++ made)
    (hm : acceptedEntries made = []) : Books k w' where
  listed := by
    rw [manifest, hl, hc, acceptedEntries_append, hm, List.append_nil]
    exact h.listed
  written := by rw [manifest, hl, hw]; exact h.written
  nodup := by rw [manifest, hl]; exact h.nodup
  usable := by rw [manifest, hl]; exact h.usable
  encrypted := by rw [manifest, records, hl]; exact h.encrypted
  clear := by rw [manifest, hl]; exact h.clear

/-- A path that passes `checkPath` is not in the manifest yet. -/
theorem path_not_mem (h : Books k w) {path : String} (hp : checkPath w.written path = .ok ()) :
    path ∉ w.manifest.paths := by
  have := (entryPath_of_checkPath hp).2
  rwa [h.written, List.mem_reverse] at this

/-- One accepted write and the entry that lists it keep the `Books`. -/
theorem of_push (h : Books k w) {path : String} (hp : checkPath w.written path = .ok ())
    {e : Entry} {r : List Record} {data : Bytes} {method : Zip.Method} (he : e.path = path)
    (hl : w'.ledger
      = { w.ledger with records := w.records ++ r, manifest := w.manifest.push e })
    (hw : w'.written = path :: w.written)
    (hc : w'.archive.calls = w.archive.calls ++ [⟨.write path data method, none⟩])
    (hlist : Lists k e (path, data, method))
    (hr : (if e.isEncrypted then [e] else []) = r.map w.ledger.entry)
    (hs : e.encryption = none → e.size = none) : Books k w' := by
  obtain ⟨hpath, -⟩ := entryPath_of_checkPath hp
  have hm : w'.manifest = w.manifest.push e := by rw [manifest, hl]
  have hentry : w'.ledger.entry = w.ledger.entry := by rw [hl]; rfl
  refine ⟨?_, ?_, ?_, ?_, ?_, ?_⟩
  · rw [hm, Manifest.entries_push, hc, acceptedEntries_append]
    refine List.rel_append h.listed ?_
    rw [show acceptedEntries [⟨.write path data method, none⟩] = [(path, data, method)] by
      simp [acceptedEntries, hpath.isReserved_eq_false]]
    exact .cons hlist .nil
  · rw [hm, hw, h.written, Manifest.paths_push, List.reverse_append, he]
    rfl
  · rw [hm, Manifest.paths_push, he, List.nodup_append]
    refine ⟨h.nodup, List.nodup_singleton path, ?_⟩
    intro a ha b hb hab
    rw [List.mem_singleton] at hb
    exact h.path_not_mem hp (hb ▸ hab ▸ ha)
  · intro p hmem
    rw [hm, Manifest.paths_push, he, List.mem_append, List.mem_singleton] at hmem
    rcases hmem with hmem | rfl
    · exact h.usable p hmem
    · exact hpath
  · have hrec : w'.records = w.records ++ r := by rw [records, hl]
    rw [hm, Manifest.encrypted_push, h.encrypted, hr, hentry, hrec, List.map_append]
  · intro e' hmem
    rw [hm, Manifest.entries_push, List.mem_append, List.mem_singleton] at hmem
    rcases hmem with hmem | rfl
    · exact h.clear e' hmem
    · exact hs

variable [Archive α] [RandomSource ρ]

/-- Every `Step` keeps the `Books`. -/
theorem step (hk : Cipher.RoundKeys.ofBytes? w.key.bytes = some k) {q : Request}
    {result : Except Error Unit} (hs : Step w q result w') (h : Books k w) : Books k w' := by
  have lost : ∀ (c : Archive.Call) (e : Error),
      acceptedEntries [⟨c, failure? (.error e)⟩] = [] := by
    intro c e
    cases c <;> rfl
  have closing : ∀ (data : Bytes) (r : Except Error Unit), acceptedEntries
      ([⟨.write Vocabulary.manifestPath data .deflated, failure? (.ok ())⟩]
        ++ [⟨.finish, failure? r⟩]) = [] := by
    intro data r
    simp [acceptedEntries, failure?]
  cases hs with
  | refused | rejected => exact h
  | unencrypted hw hp he => exact h.of_same_account rfl rfl (List.append_nil _).symm rfl
  | encryptedLost hw hp he ha =>
      exact h.of_same_account rfl rfl (Traced.calls_of_writeEntry ha) (lost _ _)
  | clearLost hw hp ha =>
      exact h.of_same_account rfl rfl (Traced.calls_of_writeEntry ha) (lost _ _)
  | manifestLost hw ha =>
      exact h.of_same_account rfl rfl (Traced.calls_of_writeEntry ha) (lost _ _)
  | @encrypted path mediaType content entry random archive ledger hw hp he ha hl =>
      obtain ⟨p, hfit, -, rfl⟩ := encryptFresh_eq_ok hk he
      rw [ciphertext_sealEntry] at ha
      have hlist := Lists.of_record (k := k) w.ledger (w.recordOf path mediaType
        (sealEntry k (Deflate.compress content) (Summary.of content) w.parameters p.vector
          p.filler)) hfit.filler
      rw [path_recordOf, vector_recordOf, vector_sealEntry] at hlist
      exact h.of_push hp rfl (eq_of_record hl) rfl (Traced.calls_of_writeEntry ha) hlist rfl
        (fun hn => by cases hn)
  | @clear path mediaType content archive hw hp ha =>
      have hl : w.ledger.addClear path mediaType = { w.ledger with
          records := w.records ++ [], manifest := w.manifest.push (.clear path mediaType) } := by
        rw [List.append_nil]
        rfl
      exact h.of_push hp rfl hl rfl (Traced.calls_of_writeEntry ha) (.clear rfl) rfl (fun _ => rfl)
  | unfinished hw ha hf | closed hw ha hf =>
      have hc := Traced.calls_of_finish hf
      rw [Traced.calls_of_writeEntry ha, List.append_assoc] at hc
      exact h.of_same_account rfl rfl hc (closing _ _)

/-- The `Books` of a package that was just opened are empty. -/
theorem of_opened {mediaType : String} {parameters : Parameters} {archive : α} {random : ρ}
    (h : Opened mediaType parameters ⟨archive, []⟩ random w) : Books k w := by
  obtain ⟨digest, salt, random', key, archive', -, ha, rfl⟩ := h.exists_eq
  have hc := Traced.calls_of_writeEntry ha
  refine ⟨?_, rfl, List.nodup_nil, by simp [manifest, Ledger.empty, Manifest.paths], rfl,
    by simp [manifest, Ledger.empty]⟩
  rw [show acceptedEntries archive'.calls = [] by
    rw [hc]
    simp [acceptedEntries, failure?]]
  exact .nil

/-- Every `run` keeps the `Books`. -/
theorem run (hk : Cipher.RoundKeys.ofBytes? w.key.bytes = some k) (h : Books k w)
    (qs : List Request) : Books k (w.run qs) := by
  have main : Books k (w.run qs) ∧ Cipher.RoundKeys.ofBytes? (w.run qs).key.bytes = some k := by
    refine run_induction (P := fun w => Books k w ∧ Cipher.RoundKeys.ofBytes? w.key.bytes = some k)
      ?_ ⟨h, hk⟩ qs
    intro v v' q result hs hv
    refine ⟨hv.1.step hv.2 hs, ?_⟩
    rw [hs.frame.1]
    exact hv.2
  exact main.1

end Books

/-! ## The account -/

/-- What the account of a package says in every state, where `w` is the writer as it was opened and
`w'` the writer in that state; unlike `Books`, it is stated for a reader. -/
structure Account (parameters : Parameters) (w w' : ProtectedWriter (Traced α) ρ) : Prop where
  /-- The entries of the manifest are the accepted writes, one by one. -/
  listed : List.Forall₂ (Lists (.ofKey parameters.keySize w.key.bytes)) w'.manifest.entries
    (acceptedEntries w'.archive.calls)
  nodup : w'.manifest.paths.Nodup
  usable : ∀ p ∈ w'.manifest.paths, EntryPath p
  /-- The records are the encrypted entries, one by one. -/
  recorded : List.Forall₂ Record.Describes w'.records w'.manifest.encrypted
  clear : ∀ e ∈ w'.manifest.entries, e.encryption = none →
    e.size = none ∧ ∀ r ∈ w'.records, r.path ≠ e.path
  /-- What a descriptor says about the key is what was fixed at the opening. -/
  keyed : ∀ e ∈ w'.manifest.entries, ∀ d, e.encryption = some d →
    d.salt = w.salt ∧ d.iterationCount = parameters.iterations
      ∧ d.keySize = UInt64.ofNat parameters.keySize.bytes
      ∧ d.startKeyGeneration = parameters.startKey.startKeyName
      ∧ d.startKeySize = UInt64.ofNat parameters.startKey.outputSize
      ∧ d.keyDerivation = Vocabulary.keyDerivation
  written : ∀ p, p ∈ w'.written ↔ p ∈ w'.manifest.paths
  /-- The ledger never refuses the record of a path that passed the check. -/
  record : ∀ path mediaType entry, checkPath w'.written path = .ok () →
    ∃ ledger, w'.ledger.record (w'.recordOf path mediaType entry) = .ok ledger

namespace Books

variable {k : Cipher.RoundKeys} {w : ProtectedWriter (Traced α) ρ}

/-- An encrypted entry of the manifest was made from a record by `Ledger.entry`. -/
theorem exists_record (h : Books k w) {e : Entry} (he : e ∈ w.manifest.entries)
    (hd : e.encryption ≠ none) : ∃ r ∈ w.records, w.ledger.entry r = e := by
  have hmem : e ∈ w.manifest.encrypted := by
    rw [Manifest.encrypted, List.mem_filter]
    exact ⟨he, by rwa [Entry.isEncrypted, Option.isSome_iff_ne_none]⟩
  rw [h.encrypted, List.mem_map] at hmem
  exact hmem

/-- A record and an entry of one path are about the same entry. -/
theorem encryption_ne_none (h : Books k w) {e : Entry} (he : e ∈ w.manifest.entries) {r : Record}
    (hr : r ∈ w.records) (hp : r.path = e.path) : e.encryption ≠ none := by
  have hmem : w.ledger.entry r ∈ w.manifest.encrypted := by
    rw [h.encrypted]
    exact List.mem_map_of_mem hr
  have heq : w.ledger.entry r = e :=
    List.inj_on_of_nodup_map h.nodup (List.mem_of_mem_filter hmem) he hp
  rw [← heq]
  exact Option.some_ne_none _

end Books

/-- **The account of a package.**  After any sequence of calls on an opened writer, manifest,
records and written paths agree with each other and with what the archive has taken (`Account`). -/
theorem account_run_of_opened [Archive α] [RandomSource ρ] {mediaType : String}
    {parameters : Parameters} {archive : α} {random : ρ} {w : ProtectedWriter (Traced α) ρ}
    (h : Opened mediaType parameters ⟨archive, []⟩ random w) (qs : List Request) :
    Account parameters w (w.run qs) := by
  have hb : Books _ (w.run qs) := (Books.of_opened h).run h.roundKeys qs
  obtain ⟨-, hparam, hsalt, -⟩ := run_frame w qs
  have hparameters : (w.run qs).parameters = parameters := by
    rw [hparam]
    exact h.parameters_eq
  refine ⟨hb.listed, hb.nodup, hb.usable, ?_, ?_, ?_, ?_, ?_⟩
  · rw [hb.encrypted, List.forall₂_map_right_iff, List.forall₂_same]
    intro r _
    exact Record.describes_entry _ r
  · intro e he hn
    exact ⟨hb.clear e he hn, fun r hr hp => hb.encryption_ne_none he hr hp hn⟩
  · intro e he d hd
    obtain ⟨r, -, rfl⟩ := hb.exists_record he (by rw [hd]; exact Option.some_ne_none d)
    cases hd
    rw [← hsalt, ← hparameters]
    exact ⟨rfl, rfl, rfl, rfl, rfl, rfl⟩
  · intro p
    rw [hb.written, List.mem_reverse]
  · intro path mediaType entry hp
    exact exists_record_of_checkPath hp mediaType entry

/-- The account of a package with an encrypted entry, a clear one and a refused one. -/
theorem account_run_shelf :
    ∃ w, Opened "text" .least (⟨⟨9⟩, []⟩ : Traced Shelf) (⟨0⟩ : Counter) w
      ∧ Account .least w
        (w.run [.write "a" "x" [1, 2] true, .write "b" "y" [3] false, .write "a" "z" [] true]) := by
  obtain ⟨w, hw⟩ := exists_eq_ok_of_isOk (x := (openWithPassword "text" .least
    (⟨⟨9⟩, []⟩ : Traced Shelf) (⟨0⟩ : Counter) [112]).1) (by decide +kernel)
  exact ⟨w, .withPassword hw, account_run_of_opened (.withPassword hw) _⟩

end ProtectedWriter

end OpenDocument
