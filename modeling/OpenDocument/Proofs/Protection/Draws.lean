import OpenDocument.Protection.Writer

/-!
# OpenDocument.Proofs.Protection.Draws

What encrypting draws from its random source.  A recorded source keeps every draw with what came
of it, so that a statement about draws is one about lists.  `Redraw` says which lists of draws the
search for an unused initialisation vector can leave behind, and with which outcome;
`encryptFresh_redraw` says that there are no others.
-/

namespace OpenDocument

/-! ## Recorded sources -/

/-- A draw from a source: how many bytes `RandomSource.fill` was asked for, and what it gave. -/
structure Draw where
  length : Nat
  result : Except Error Bytes

/-- A source with the draws made from it, in order. -/
structure RecordedRandom (ρ : Type) where
  source : ρ
  draws : List Draw := []

instance {ρ : Type} [RandomSource ρ] : RandomSource (RecordedRandom ρ) where
  fill t n :=
    let (result, source) := RandomSource.fill t.source n
    (result, ⟨source, t.draws ++ [⟨n, result.map Subtype.val⟩]⟩)

/-- Every draw by `fill` is recorded with its result, behind the earlier ones. -/
theorem RecordedRandom.draws_of_fill {ρ : Type} [RandomSource ρ] {random random' : RecordedRandom ρ}
    {n : Nat} {result : Except Error (SizedBytes n)}
    (h : RandomSource.fill random n = (result, random')) :
    random'.draws = random.draws ++ [⟨n, result.map Subtype.val⟩] := by
  cases h; rfl

/-! ## One attempt -/

/-- An entry sealed with the given vector and filler, the two draws of `encryptEntry`. -/
def sealEntry (k : Cipher.RoundKeys) (compressed : Bytes) (summary : Summary)
    (parameters : Parameters) (vector filler : Bytes) : EncryptedEntry where
  ciphertext := Cipher.encryptBytes k vector (Cipher.pad compressed filler)
  vector := vector
  checksum := parameters.checksum.checksum summary compressed
  plainLength := summary.length
  compressedLength := compressed.length

section

variable (k : Cipher.RoundKeys) (compressed : Bytes) (summary : Summary) (parameters : Parameters)
  (vector filler : Bytes)

@[simp] theorem ciphertext_sealEntry :
    (sealEntry k compressed summary parameters vector filler).ciphertext
      = Cipher.encryptBytes k vector (Cipher.pad compressed filler) := rfl

@[simp] theorem vector_sealEntry :
    (sealEntry k compressed summary parameters vector filler).vector = vector := rfl

end

/-- How many bytes the filler of a padding has: `Cipher.padLength` less the byte that counts
them. -/
def fillerLength (compressed : Bytes) : Nat :=
  Cipher.padLength compressed.length - 1

variable {ρ : Type} [RandomSource ρ] {compressed : Bytes} {summary : Summary}
  {parameters : Parameters} {key : PackageKey} {k : Cipher.RoundKeys}

/-- With a key that fits the cipher, an attempt is two draws and nothing else that can fail. -/
theorem encryptEntry_ofBytes (hk : Cipher.RoundKeys.ofBytes? key.bytes = some k) (random : ρ) :
    encryptEntry (Source.ofBytes compressed) summary parameters key random =
      match RandomSource.fill random Parameters.vectorSize with
      | (.error e, random) => (.error e, random)
      | (.ok vector, random) =>
        match RandomSource.fill random (fillerLength compressed) with
        | (.error e, random) => (.error e, random)
        | (.ok filler, random) =>
          (.ok (sealEntry k compressed summary parameters vector.val filler.val), random) := by
  simp only [encryptEntry, Source.readAll_ofBytes, encryptCompressed, encryptPadded, hk,
    fillerLength]
  rfl

/-- What comes of an attempt: one of the two draws fails, or the entry is sealed with what was
drawn. -/
theorem encryptEntry_cases (hk : Cipher.RoundKeys.ofBytes? key.bytes = some k)
    {random random' : ρ} {result : Except Error EncryptedEntry}
    (h : encryptEntry (Source.ofBytes compressed) summary parameters key random
      = (result, random')) :
    (∃ e, RandomSource.fill random Parameters.vectorSize = (.error e, random')
        ∧ result = .error e)
      ∨ (∃ vector random₁ e, RandomSource.fill random Parameters.vectorSize = (.ok vector, random₁)
        ∧ RandomSource.fill random₁ (fillerLength compressed) = (.error e, random')
        ∧ result = .error e)
      ∨ (∃ vector random₁ filler,
        RandomSource.fill random Parameters.vectorSize = (.ok vector, random₁)
        ∧ RandomSource.fill random₁ (fillerLength compressed) = (.ok filler, random')
        ∧ result = .ok (sealEntry k compressed summary parameters vector.val filler.val)) := by
  rw [encryptEntry_ofBytes hk] at h
  cases hv : RandomSource.fill random Parameters.vectorSize with
  | mk v random₁ =>
      cases v with
      | error e =>
          simp only [hv, Prod.mk.injEq] at h
          obtain ⟨rfl, rfl⟩ := h
          exact .inl ⟨e, rfl, rfl⟩
      | ok vector =>
          cases hf : RandomSource.fill random₁ (fillerLength compressed) with
          | mk f random₂ =>
              cases f with
              | error e =>
                  simp only [hv, hf, Prod.mk.injEq] at h
                  obtain ⟨rfl, rfl⟩ := h
                  exact .inr (.inl ⟨vector, random₁, e, rfl, hf, rfl⟩)
              | ok filler =>
                  simp only [hv, hf, Prod.mk.injEq] at h
                  obtain ⟨rfl, rfl⟩ := h
                  exact .inr (.inr ⟨vector, random₁, filler, rfl, hf, rfl⟩)

/-! ## Attempts until a vector is unused -/

/-- What one successful attempt draws: an initialisation vector, and a filler for the padding. -/
structure Pair where
  vector : Bytes
  filler : Bytes
  deriving DecidableEq, Repr

/-- Draw a vector and a filler of `n` bytes. -/
def drawPair (n : Nat) (random : ρ) : Except Error Pair × ρ :=
  match RandomSource.fill random Parameters.vectorSize with
  | (.error e, random) => (.error e, random)
  | (.ok vector, random) =>
    match RandomSource.fill random n with
    | (.error e, random) => (.error e, random)
    | (.ok filler, random) => (.ok ⟨vector.val, filler.val⟩, random)

/-- Draw pairs by `drawPair` until one has a vector outside of `used`, in so many attempts. -/
def drawFresh (used : List Bytes) (n : Nat) : (attempts : Nat) → ρ → Except Error Pair × ρ
  | 0, random => (.error (.random (.noFreshVector ProtectedWriter.maxAttempts)), random)
  | attempts + 1, random =>
    match drawPair n random with
    | (.error e, random) => (.error e, random)
    | (.ok p, random) =>
      if used.contains p.vector then drawFresh used n attempts random else (.ok p, random)

/-- The draws that give a pair. -/
def Pair.draws (p : Pair) : List Draw :=
  [⟨Parameters.vectorSize, .ok p.vector⟩, ⟨p.filler.length, .ok p.filler⟩]

/-- A `Pair` with a vector of the size of a block and a filler of `n` bytes. -/
structure Pair.Fits (n : Nat) (p : Pair) : Prop where
  vector : p.vector.length = Parameters.vectorSize
  filler : p.filler.length = n

theorem fits_of_drawPair {n : Nat} {random random' : ρ} {p : Pair}
    (h : drawPair n random = (.ok p, random')) : p.Fits n := by
  unfold drawPair at h
  cases hv : RandomSource.fill random Parameters.vectorSize with
  | mk v random₁ =>
      rw [hv] at h
      cases v with
      | error e => cases h
      | ok vector =>
          cases hf : RandomSource.fill random₁ n with
          | mk f random₂ =>
              simp only [hf] at h
              cases f with
              | error e => cases h
              | ok filler =>
                  cases h
                  exact ⟨vector.property, filler.property⟩

/-- The pair that `drawFresh` ends with has the sizes that were asked for. -/
theorem fits_of_drawFresh {used : List Bytes} {n attempts : Nat} {random random' : ρ} {p : Pair}
    (h : drawFresh used n attempts random = (.ok p, random')) : p.Fits n := by
  induction attempts generalizing random with
  | zero => cases h
  | succ attempts ih =>
      unfold drawFresh at h
      cases hp : drawPair n random with
      | mk r random₁ =>
          rw [hp] at h
          cases r with
          | error e => cases h
          | ok q =>
              cases hu : used.contains q.vector with
              | true =>
                  simp only [hu, if_true] at h
                  exact ih h
              | false =>
                  simp only [hu, Bool.false_eq_true, if_false, Prod.mk.injEq, Except.ok.injEq] at h
                  rw [← h.1]
                  exact fits_of_drawPair hp

/-- The draws of a search for a vector outside of `used` in so many attempts, for fillers of `n`
bytes, and the outcome of the search.  All pairs in front of the last draws have used vectors. -/
inductive Redraw (used : List Bytes) (n limit : Nat) : List Draw → Except Error Pair → Prop
  /-- The pair drawn last has an unused vector. -/
  | fresh {collided : List Pair} {p : Pair} (hc : ∀ c ∈ collided, c.Fits n ∧ c.vector ∈ used)
      (hl : collided.length < limit) (hp : p.Fits n) (hv : p.vector ∉ used) :
      Redraw used n limit (collided.flatMap Pair.draws ++ p.draws) (.ok p)
  /-- Every attempt has met a used vector. -/
  | exhausted {collided : List Pair} (hc : ∀ c ∈ collided, c.Fits n ∧ c.vector ∈ used)
      (hl : collided.length = limit) :
      Redraw used n limit (collided.flatMap Pair.draws)
        (.error (.random (.noFreshVector ProtectedWriter.maxAttempts)))
  /-- A vector could not be drawn, and the error of the draw is the outcome. -/
  | vectorFailed {collided : List Pair} {e : Error}
      (hc : ∀ c ∈ collided, c.Fits n ∧ c.vector ∈ used) (hl : collided.length < limit) :
      Redraw used n limit (collided.flatMap Pair.draws ++ [⟨Parameters.vectorSize, .error e⟩])
        (.error e)
  /-- A filler could not be drawn, and the error of the draw is the outcome. -/
  | fillerFailed {collided : List Pair} {vector : Bytes} {e : Error}
      (hc : ∀ c ∈ collided, c.Fits n ∧ c.vector ∈ used) (hl : collided.length < limit)
      (hv : vector.length = Parameters.vectorSize) :
      Redraw used n limit (collided.flatMap Pair.draws
        ++ [⟨Parameters.vectorSize, .ok vector⟩, ⟨n, .error e⟩]) (.error e)

/-- A pair with a used vector in front of a `Redraw` takes one more attempt. -/
theorem Redraw.cons {used : List Bytes} {n limit : Nat} {ds : List Draw}
    {outcome : Except Error Pair} {c : Pair} (hc : c.Fits n ∧ c.vector ∈ used)
    (h : Redraw used n limit ds outcome) :
    Redraw used n (limit + 1) (c.draws ++ ds) outcome := by
  have mem : ∀ {cs : List Pair}, (∀ c ∈ cs, c.Fits n ∧ c.vector ∈ used) →
      ∀ d ∈ c :: cs, d.Fits n ∧ d.vector ∈ used := fun hcs d hd =>
    (List.mem_cons.mp hd).elim (fun h => h ▸ hc) (hcs d)
  cases h with
  | fresh hcs hl hp hv =>
      rw [← List.append_assoc, ← List.flatMap_cons]
      exact .fresh (mem hcs) (Nat.succ_lt_succ hl) hp hv
  | exhausted hcs hl =>
      rw [← List.flatMap_cons]
      exact .exhausted (mem hcs) (congrArg Nat.succ hl)
  | vectorFailed hcs hl =>
      rw [← List.append_assoc, ← List.flatMap_cons]
      exact .vectorFailed (mem hcs) (Nat.succ_lt_succ hl)
  | fillerFailed hcs hl hv =>
      rw [← List.append_assoc, ← List.flatMap_cons]
      exact .fillerFailed (mem hcs) (Nat.succ_lt_succ hl) hv

/-- A draw that failed is the outcome of its search. -/
theorem Redraw.eq_error_of_mem {used : List Bytes} {n limit : Nat} {ds : List Draw}
    {outcome : Except Error Pair} (h : Redraw used n limit ds outcome) {d : Draw} (hd : d ∈ ds)
    {e : Error} (he : d.result = .error e) : outcome = .error e := by
  -- the draws of pairs have succeeded, so the draw is the last one
  have pairs : ∀ cs : List Pair, d ∉ cs.flatMap Pair.draws := by
    intro cs hmem
    obtain ⟨c, -, hc⟩ := List.mem_flatMap.mp hmem
    simp only [Pair.draws, List.mem_cons, List.not_mem_nil, or_false] at hc
    rcases hc with rfl | rfl <;> cases he
  cases h with
  | @fresh cs p hcs hl hp hv =>
      rw [← List.flatMap_singleton Pair.draws p, ← List.flatMap_append] at hd
      exact absurd hd (pairs _)
  | exhausted hcs hl => exact absurd hd (pairs _)
  | vectorFailed hcs hl =>
      rcases List.mem_append.mp hd with hd | hd
      · exact absurd hd (pairs _)
      · rw [List.mem_singleton] at hd
        subst hd; cases he; rfl
  | fillerFailed hcs hl hv =>
      rcases List.mem_append.mp hd with hd | hd
      · exact absurd hd (pairs _)
      · simp only [List.mem_cons, List.not_mem_nil, or_false] at hd
        rcases hd with rfl | rfl
        · cases he
        · cases he; rfl

namespace ProtectedWriter

/-- An entry that `encryptFresh` answers is sealed with a vector outside of `used`. -/
theorem encryptFresh_eq_ok (hk : Cipher.RoundKeys.ofBytes? key.bytes = some k)
    {used : List Bytes} {attempts : Nat} {random random' : ρ} {entry : EncryptedEntry}
    (h : encryptFresh compressed summary parameters key used attempts random
      = (.ok entry, random')) :
    ∃ p : Pair, p.Fits (fillerLength compressed) ∧ p.vector ∉ used
      ∧ entry = sealEntry k compressed summary parameters p.vector p.filler := by
  induction attempts generalizing random with
  | zero => simp [encryptFresh] at h
  | succ n ih =>
      unfold encryptFresh at h
      cases hr : encryptEntry (Source.ofBytes compressed) summary parameters key random with
      | mk result random₁ =>
          rw [hr] at h
          rcases encryptEntry_cases hk hr with
            ⟨e, -, rfl⟩ | ⟨vector, _, e, -, -, rfl⟩ | ⟨vector, _, filler, -, -, rfl⟩
          · simp at h
          · simp at h
          · by_cases hu : vector.val ∈ used
            · simp only [sealEntry, hu, if_true] at h
              exact ih h
            · simp only [sealEntry, hu, if_false, Prod.mk.injEq, Except.ok.injEq] at h
              exact ⟨⟨vector.val, filler.val⟩, ⟨vector.property, filler.property⟩, hu, h.1.symm⟩

/-- What is drawn does not depend on the key: `encryptFresh` with a key that fits the cipher only
seals the pair that `drawFresh` ends with. -/
theorem encryptFresh_eq_drawFresh (hk : Cipher.RoundKeys.ofBytes? key.bytes = some k)
    (used : List Bytes) (attempts : Nat) (random : ρ) :
    encryptFresh compressed summary parameters key used attempts random
      = ((drawFresh used (fillerLength compressed) attempts random).1.map fun p =>
          sealEntry k compressed summary parameters p.vector p.filler,
        (drawFresh used (fillerLength compressed) attempts random).2) := by
  induction attempts generalizing random with
  | zero => rfl
  | succ n ih =>
      unfold encryptFresh drawFresh drawPair
      rw [encryptEntry_ofBytes hk]
      cases hv : RandomSource.fill random Parameters.vectorSize with
      | mk v random₁ =>
          cases v with
          | error e => rfl
          | ok vector =>
              cases hf : RandomSource.fill random₁ (fillerLength compressed) with
              | mk f random₂ =>
                  cases f with
                  | error e => simp only [hf]; rfl
                  | ok filler =>
                      by_cases hu : vector.val ∈ used
                      · simp only [hf, vector_sealEntry, hu, List.contains_iff_mem, if_true, ih]
                      · simp only [hf, vector_sealEntry, hu, List.contains_iff_mem, if_false]
                        rfl

/-- The draws of `encryptFresh` are a `Redraw`, and it answers the entry sealed with the pair that
they end with. -/
theorem encryptFresh_redraw (hk : Cipher.RoundKeys.ofBytes? key.bytes = some k)
    {used : List Bytes} {attempts : Nat} {random random' : RecordedRandom ρ}
    {result : Except Error EncryptedEntry}
    (h : encryptFresh compressed summary parameters key used attempts random
      = (result, random')) :
    ∃ ds outcome, Redraw used (fillerLength compressed) attempts ds outcome
      ∧ random'.draws = random.draws ++ ds
      ∧ result = outcome.map fun p =>
          sealEntry k compressed summary parameters p.vector p.filler := by
  induction attempts generalizing random with
  | zero =>
      simp only [encryptFresh, Prod.mk.injEq] at h
      obtain ⟨rfl, rfl⟩ := h
      exact ⟨_, _, @Redraw.exhausted _ _ _ [] (by simp) rfl, by simp, rfl⟩
  | succ n ih =>
      unfold encryptFresh at h
      cases hr : encryptEntry (Source.ofBytes compressed) summary parameters key random with
      | mk r random₁ =>
          rw [hr] at h
          rcases encryptEntry_cases hk hr with
            ⟨e, hv, rfl⟩ | ⟨vector, _, e, hv, hf, rfl⟩ | ⟨vector, _, filler, hv, hf, rfl⟩
          · simp only [Prod.mk.injEq] at h
            obtain ⟨rfl, rfl⟩ := h
            exact ⟨_, _, @Redraw.vectorFailed _ _ _ [] _ (by simp) (Nat.succ_pos n),
              RecordedRandom.draws_of_fill hv, rfl⟩
          · simp only [Prod.mk.injEq] at h
            obtain ⟨rfl, rfl⟩ := h
            refine ⟨_, _, @Redraw.fillerFailed _ _ _ [] _ _ (by simp) (Nat.succ_pos n)
              vector.property, ?_, rfl⟩
            rw [RecordedRandom.draws_of_fill hf, RecordedRandom.draws_of_fill hv,
              List.append_assoc]
            rfl
          · have hp : (Pair.mk vector.val filler.val).Fits (fillerLength compressed) :=
              ⟨vector.property, filler.property⟩
            have hd : random₁.draws
                = random.draws ++ (Pair.mk vector.val filler.val).draws := by
              rw [RecordedRandom.draws_of_fill hf, RecordedRandom.draws_of_fill hv,
                List.append_assoc, Pair.draws, filler.property]
              rfl
            by_cases hu : vector.val ∈ used
            · simp only [sealEntry, hu, if_true] at h
              obtain ⟨ds, outcome, hs, hds, rfl⟩ := ih h
              exact ⟨_, _, hs.cons ⟨hp, hu⟩, by rw [hds, hd, List.append_assoc], rfl⟩
            · simp only [sealEntry, hu, if_false, Prod.mk.injEq] at h
              obtain ⟨rfl, rfl⟩ := h
              exact ⟨_, _, @Redraw.fresh _ _ _ [] _ (by simp) (Nat.succ_pos n) hp hu, hd, rfl⟩

end ProtectedWriter

end OpenDocument
