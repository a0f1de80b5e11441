import OpenDocument.Proofs.Cipher
import OpenDocument.Proofs.Protection.Draws
import OpenDocument.Proofs.Protection.Run

/-!
# OpenDocument.Proofs.Protection.Framing

How one entry is encrypted.  `Source.Delivers` says what a source gives up to its end or its
failure, however it is cut into reads, and nothing else of a source matters.  If both draws are made
and the key fits, the entry is framed as `Framed` says, so that it can be undone
(`framed_of_drawn`).  `Course` lists every way that encrypting can go, each with its draws;
`accounted_encryptEntry` says that the list is complete.
-/

namespace OpenDocument

/-! ## Sources -/

/-- What a source delivers: the bytes in front of its end or of its failure, and the failure.
Pieces may be cut anywhere, and interrupted reads stand anywhere between them. -/
inductive Source.Delivers : Source → Bytes → Option StreamFault → Prop
  | ended : Delivers [] [] none
  | empty {rest : Source} : Delivers (.data [] :: rest) [] none
  | failed {fault : StreamFault} {rest : Source} : Delivers (.failed fault :: rest) [] (some fault)
  | piece {piece bs : Bytes} {rest : Source} {failure : Option StreamFault} (hp : piece ≠ [])
      (h : Delivers rest bs failure) : Delivers (.data piece :: rest) (piece ++ bs) failure
  | again {bs : Bytes} {rest : Source} {failure : Option StreamFault}
      (h : Delivers rest bs failure) : Delivers (.interrupted :: rest) bs failure

namespace Source

/-- Every source `Delivers` something. -/
theorem exists_delivers (s : Source) : ∃ bs failure, s.Delivers bs failure := by
  induction s with
  | nil => exact ⟨_, _, .ended⟩
  | cons read rest ih =>
      obtain ⟨bs, failure, h⟩ := ih
      cases read with
      | interrupted => exact ⟨_, _, .again h⟩
      | failed fault => exact ⟨_, _, .failed⟩
      | data piece =>
          cases piece with
          | nil => exact ⟨_, _, .empty⟩
          | cons b piece => exact ⟨_, _, .piece (List.cons_ne_nil b piece) h⟩

namespace Delivers

variable {s : Source} {bs : Bytes} {failure : Option StreamFault}

/-- The pieces that `collect` has read so far stand in front of what the source `Delivers`. -/
theorem collect_eq (h : s.Delivers bs failure) (done : List Bytes) :
    s.collect done = failure.elim (.ok (done.reverse.flatten ++ bs)) .error := by
  induction h generalizing done with
  | ended | empty => simp [collect]
  | failed => rfl
  | @piece piece bs rest failure hp h ih =>
      obtain ⟨b, piece, rfl⟩ := List.exists_cons_of_ne_nil hp
      rw [collect, ih]
      · cases failure <;> simp
      · exact List.cons_ne_nil b piece
  | again h ih => rw [collect, ih]

theorem readAll_eq_ok (h : s.Delivers bs none) : s.readAll = .ok bs :=
  h.collect_eq []

theorem readAll_eq_error {fault : StreamFault} (h : s.Delivers bs (some fault)) :
    s.readAll = .error fault :=
  h.collect_eq []

end Delivers

/-- A source that `readAll` reads to its end delivers what was read, with no failure. -/
theorem delivers_of_readAll {s : Source} {bs : Bytes} (h : s.readAll = .ok bs) :
    s.Delivers bs none := by
  obtain ⟨ds, failure, hd⟩ := s.exists_delivers
  cases failure with
  | some fault => cases hd.readAll_eq_error.symm.trans h
  | none =>
      cases hd.readAll_eq_ok.symm.trans h
      exact hd

end Source

/-! ## Keys -/

/-- `ofBytes?` takes keys of these lengths, -/
theorem Cipher.RoundKeys.exists_ofBytes? {key : Bytes} (h : key.length ∈ [16, 24, 32]) :
    ∃ k, ofBytes? key = some k := by
  simp only [List.mem_cons, List.not_mem_nil, or_false] at h
  rcases h with h | h | h <;> exact ⟨_, by rw [ofBytes?, h]; rfl⟩

/-- and no others. -/
theorem Cipher.RoundKeys.ofBytes?_eq_none {key : Bytes} (h : key.length ∉ [16, 24, 32]) :
    ofBytes? key = none := by
  simp only [List.mem_cons, List.not_mem_nil, or_false, not_or] at h
  rw [ofBytes?, KeySize.ofBytes?, if_neg h.1, if_neg h.2.1, if_neg h.2.2]
  rfl

/-- The filler of a padding is short of a block by one byte, and that byte, which counts
`padLength`, has its place. -/
theorem Cipher.padLength_sub_one (n : Nat) : padLength n - 1 = 15 - n % 16 := by
  simp only [padLength, blockSize]
  omega

/-! ## Framing -/

section

variable {ρ : Type} [RandomSource ρ] {source : Source} {d : Bytes} {summary : Summary}
  {parameters : Parameters} {key : PackageKey}

/-- Nothing is drawn for a source that `Delivers` a failure. -/
theorem encryptEntry_of_failed {fault : StreamFault} (h : source.Delivers d (some fault))
    (random : ρ) :
    encryptEntry source summary parameters key random = (.error (.stream fault), random) := by
  rw [encryptEntry, h.readAll_eq_error]

/-- Of a source that ends, only the bytes matter: `encryptEntry` comes to `encryptCompressed`. -/
theorem encryptEntry_of_ended (h : source.Delivers d none) (random : ρ) :
    encryptEntry source summary parameters key random
      = encryptCompressed d summary parameters key random := by
  rw [encryptEntry, h.readAll_eq_ok]

/-- `encryptEntry` depends on the source only through what it `Delivers`, or its failure. -/
theorem encryptEntry_congr {source' : Source} {d' : Bytes} {failure : Option StreamFault}
    (h : source.Delivers d failure) (h' : source'.Delivers d' failure)
    (hd : failure = none → d' = d) (random : ρ) :
    encryptEntry source' summary parameters key random
      = encryptEntry source summary parameters key random := by
  cases failure with
  | some fault => rw [encryptEntry_of_failed h, encryptEntry_of_failed h']
  | none => rw [encryptEntry_of_ended h, encryptEntry_of_ended h', hd rfl]

/-- Both draws of `encryptCompressed` are made, and then the key decides. -/
theorem encryptCompressed_of_drawn {n : Nat} (hn : n = fillerLength d) {random random₁ random₂ : ρ}
    {vector : SizedBytes Parameters.vectorSize} {filler : SizedBytes n}
    (hv : RandomSource.fill random Parameters.vectorSize = (.ok vector, random₁))
    (hf : RandomSource.fill random₁ n = (.ok filler, random₂)) :
    encryptCompressed d summary parameters key random =
      (match Cipher.RoundKeys.ofBytes? key.bytes with
        | none => .error (.cipher (.keySize key.bytes.length))
        | some k => .ok (sealEntry k d summary parameters vector.val filler.val), random₂) := by
  subst hn
  unfold fillerLength at hf
  simp only [encryptCompressed, hv, encryptPadded]
  rw [hf]
  cases Cipher.RoundKeys.ofBytes? key.bytes <;> rfl

/-- A failed draw of the vector is the outcome, and nothing more is drawn. -/
theorem encryptCompressed_of_vector_failed {e : Error} {random random' : ρ}
    (hv : RandomSource.fill random Parameters.vectorSize = (.error e, random')) :
    encryptCompressed d summary parameters key random = (.error e, random') := by
  rw [encryptCompressed, hv]

/-- A failed draw of the filler is the outcome, whatever the key. -/
theorem encryptCompressed_of_filler_failed {e : Error} {random random₁ random₂ : ρ}
    {vector : SizedBytes Parameters.vectorSize}
    (hv : RandomSource.fill random Parameters.vectorSize = (.ok vector, random₁))
    (hf : RandomSource.fill random₁ (fillerLength d) = (.error e, random₂)) :
    encryptCompressed d summary parameters key random = (.error e, random₂) := by
  unfold fillerLength at hf
  simp only [encryptCompressed, hv, hf]

/-- What was padded and encrypted with a filler is decrypted by `decryptEntry` to what it was. -/
theorem decryptEntry_sealed {k : Cipher.RoundKeys}
    (hk : Cipher.RoundKeys.ofBytes? key.bytes = some k) (compressed vector : Bytes)
    {filler : Bytes} (hf : filler.length = fillerLength compressed) :
    decryptEntry key vector (Cipher.encryptBytes k vector (Cipher.pad compressed filler))
      = .ok compressed := by
  rw [decryptEntry, hk]
  exact congrArg _ (Cipher.unpad_decryptBytes k vector hf)

/-- An entry that frames `d` with the given vector and filler.  What is decrypted is `d` and its
padding, of which `filler` is all but the last byte, and this one says how long it is. -/
structure Framed (parameters : Parameters) (summary : Summary) (key : PackageKey)
    (d vector filler : Bytes) (entry : EncryptedEntry) : Prop where
  vector_eq : entry.vector = vector
  length_vector : entry.vector.length = 16
  length_ciphertext : entry.ciphertext.length = 16 * (d.length / 16 + 1)
  longer : d.length < entry.ciphertext.length
  decrypted : ∃ k p, Cipher.RoundKeys.ofBytes? key.bytes = some k ∧ 1 ≤ p ∧ p ≤ 16
    ∧ filler.length = p - 1
    ∧ Cipher.decryptBytes k entry.vector entry.ciphertext = d ++ (filler ++ [UInt8.ofNat p])
  stripped : decryptEntry key entry.vector entry.ciphertext = .ok d
  compressedLength_eq : entry.compressedLength = d.length
  plainLength_eq : entry.plainLength = summary.length
  /-- A `content` checksum is the one in the summary. -/
  content : parameters.checksum = .content → entry.checksum = summary.sha256
  /-- A `leading` checksum covers what is compressed, without its padding. -/
  leading : parameters.checksum = .leading →
    entry.checksum = Hash.sha256 (d.take (min d.length 1024))

/-- A `sealEntry` entry is `Framed`. -/
theorem framed_sealEntry {k : Cipher.RoundKeys} (hk : Cipher.RoundKeys.ofBytes? key.bytes = some k)
    {vector filler : Bytes} (hv : vector.length = 16) (hf : filler.length = fillerLength d) :
    Framed parameters summary key d vector filler
      (sealEntry k d summary parameters vector filler) := by
  have hstripped := decryptEntry_sealed hk d vector hf
  have hpad := Cipher.length_pad hf
  have hpos := Cipher.padLength_pos d.length
  have hle := Cipher.padLength_le d.length
  have hwhole : (Cipher.pad d filler).length % 16 = 0 := by omega
  have hlength : (sealEntry k d summary parameters vector filler).ciphertext.length
      = 16 * (d.length / 16 + 1) := by
    rw [ciphertext_sealEntry, Cipher.length_encryptBytes _ _ _ hwhole, hpad]
  rw [fillerLength] at hf
  exact {
    vector_eq := rfl
    length_vector := hv
    length_ciphertext := hlength
    longer := by omega
    decrypted := by
      refine ⟨k, Cipher.padLength d.length, hk, hpos, hle, hf, ?_⟩
      rw [vector_sealEntry, ciphertext_sealEntry, Cipher.decryptBytes_encryptBytes _ _ _ hwhole,
        Cipher.pad, show filler.length + 1 = Cipher.padLength d.length by omega, List.append_assoc]
    stripped := hstripped
    compressedLength_eq := rfl
    plainLength_eq := rfl
    content := by
      intro h
      simp only [sealEntry, h, ChecksumKind.checksum]
    leading := by
      intro h
      simp only [sealEntry, h, ChecksumKind.checksum, Parameters.leadingSize]
      rw [Nat.min_comm, ← List.take_take, List.take_length] }

end

/-! ## Every course -/

section

variable {ρ : Type} [RandomSource ρ] {source : Source} {d : Bytes} {failure : Option StreamFault}
  {summary : Summary} {parameters : Parameters} {key : PackageKey}

/-- What encrypting a source that delivers `n` bytes draws, and its outcome.  A source that fails
comes first, then the draw of the vector, then the draw of the filler, and the key comes last. -/
inductive Course (n : Nat) (key : PackageKey) :
    Option StreamFault → List Draw → Except Error EncryptedEntry → Prop
  | unread {fault : StreamFault} : Course n key (some fault) [] (.error (.stream fault))
  | vectorFailed {e : Error} : Course n key none [⟨16, .error e⟩] (.error e)
  | fillerFailed {vector : Bytes} {e : Error} :
      Course n key none [⟨16, .ok vector⟩, ⟨15 - n % 16, .error e⟩] (.error e)
  | unfit {vector filler : Bytes} (hk : key.bytes.length ∉ [16, 24, 32]) :
      Course n key none [⟨16, .ok vector⟩, ⟨15 - n % 16, .ok filler⟩]
        (.error (.cipher (.keySize key.bytes.length)))
  | encrypted {vector filler : Bytes} {entry : EncryptedEntry}
      (hk : key.bytes.length ∈ [16, 24, 32]) :
      Course n key none [⟨16, .ok vector⟩, ⟨15 - n % 16, .ok filler⟩] (.ok entry)

/-- Compressed bytes that were read take one of the courses. -/
theorem course_encryptCompressed {random random' : RecordedRandom ρ}
    {outcome : Except Error EncryptedEntry}
    (h : encryptCompressed d summary parameters key random = (outcome, random')) :
    ∃ ds, Course d.length key none ds outcome ∧ random'.draws = random.draws ++ ds := by
  have hlength : fillerLength d = 15 - d.length % 16 := Cipher.padLength_sub_one d.length
  cases hv : RandomSource.fill random Parameters.vectorSize with
  | mk v random₁ =>
      have draw := RecordedRandom.draws_of_fill hv
      cases v with
      | error e =>
          obtain ⟨rfl, rfl⟩ := Prod.mk.inj ((encryptCompressed_of_vector_failed hv).symm.trans h)
          exact ⟨_, .vectorFailed, draw⟩
      | ok vector =>
          cases hf : RandomSource.fill random₁ (fillerLength d) with
          | mk f random₂ =>
              have draws := RecordedRandom.draws_of_fill hf
              rw [draw, List.append_assoc] at draws
              cases f with
              | error e =>
                  obtain ⟨rfl, rfl⟩ :=
                    Prod.mk.inj ((encryptCompressed_of_filler_failed hv hf).symm.trans h)
                  simp only [Except.map, hlength] at draws
                  exact ⟨_, .fillerFailed, draws⟩
              | ok filler =>
                  obtain ⟨rfl, rfl⟩ :=
                    Prod.mk.inj ((encryptCompressed_of_drawn rfl hv hf).symm.trans h)
                  simp only [Except.map, hlength] at draws
                  by_cases hk : key.bytes.length ∈ [16, 24, 32]
                  · obtain ⟨k, hkeys⟩ := Cipher.RoundKeys.exists_ofBytes? hk
                    rw [hkeys]
                    exact ⟨_, .encrypted hk, draws⟩
                  · rw [Cipher.RoundKeys.ofBytes?_eq_none hk]
                    exact ⟨_, .unfit hk, draws⟩

/-- What encrypting a source that delivers `d`, or fails behind it, comes to. -/
structure Accounted (source : Source) (summary : Summary) (parameters : Parameters)
    (key : PackageKey) (d : Bytes) (failure : Option StreamFault) : Prop where
  delivers : source.Delivers d failure
  /-- Any other source that delivers the same, or fails in the same way, comes to the same. -/
  alike : ∀ {ρ : Type} [RandomSource ρ] (random : ρ) {source' : Source} {d' : Bytes},
    source'.Delivers d' failure → (failure = none → d' = d) →
    encryptEntry source' summary parameters key random
      = encryptEntry source summary parameters key random
  course : ∀ {ρ : Type} [RandomSource ρ] {random random' : RecordedRandom ρ}
    {outcome : Except Error EncryptedEntry},
    encryptEntry source summary parameters key random = (outcome, random') →
    ∃ ds, Course d.length key failure ds outcome ∧ random'.draws = random.draws ++ ds

/-- What a source delivers decides how encrypting it goes. -/
theorem Source.Delivers.accounted (h : source.Delivers d failure) :
    Accounted source summary parameters key d failure where
  delivers := h
  alike random _ _ h' hd := encryptEntry_congr h h' hd random
  course {_ _ random _ _} hr := by
    cases failure with
    | some fault =>
        obtain ⟨rfl, rfl⟩ := Prod.mk.inj ((encryptEntry_of_failed h random).symm.trans hr)
        exact ⟨[], .unread, (List.append_nil _).symm⟩
    | none =>
        rw [encryptEntry_of_ended h] at hr
        exact course_encryptCompressed hr

/-- **Every failure of encrypting has its place, and every draw is accounted for.**  Whatever the
source, the summary, the parameters and the key, encrypting takes one of the courses, which only
depends on what the source delivers.  The lengths that are drawn never underflow, and the filler has
room in a block. -/
theorem accounted_encryptEntry (source : Source) (summary : Summary) (parameters : Parameters)
    (key : PackageKey) :
    (∃ d failure, Accounted source summary parameters key d failure)
      ∧ ∀ n, n % Cipher.blockSize ≤ Cipher.blockSize ∧ 1 ≤ Cipher.padLength n
        ∧ Cipher.padLength n ≤ Cipher.blockSize
        ∧ Cipher.padLength n - 1 = 15 - n % 16 := by
  obtain ⟨d, failure, h⟩ := source.exists_delivers
  refine ⟨⟨d, failure, h.accounted⟩, fun n => ⟨?_, Cipher.padLength_pos n, Cipher.padLength_le n,
    Cipher.padLength_sub_one n⟩⟩
  exact Nat.le_of_lt (Nat.mod_lt n (by decide))

end

end OpenDocument
