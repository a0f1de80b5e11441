import Mathlib.Data.List.TakeWhile
import OpenDocument.Proofs.Protection.Run

/-!
# OpenDocument.Proofs.Protection.Opening

The order in which a package is opened.  The password, the media type and the digest are checked in
front of the only draw, and the draw is made in front of the only call on the archive; `Proceeds`
lists what can happen behind the checks.  A failure ends the opening where it happens, and the
password is wiped in any case (`opens_in_order`).
-/

namespace OpenDocument

/-! ## Media types -/

/-- Nothing is left by `trim` exactly if the text is blank. -/
theorem Text.trim_eq_nil_iff {cs : List Char} : trim cs = [] ↔ ∀ c ∈ cs, isBlank c = true := by
  rw [trim, List.reverse_eq_nil_iff, List.dropWhile_eq_nil_iff]
  constructor
  · intro h c hc
    rw [← List.takeWhile_append_dropWhile (p := isBlank) (l := cs), List.mem_append] at hc
    rcases hc with hc | hc
    · exact List.mem_takeWhile_imp hc
    · exact h c (List.mem_reverse.mpr hc)
  · intro h c hc
    rw [List.dropWhile_eq_nil_iff.mpr h] at hc
    cases hc

/-- A media type without a character that is not `Text.isBlank`. -/
def Blank (mediaType : String) : Prop :=
  ∀ c ∈ mediaType.toList, Text.isBlank c = true

theorem checkMediaType_of_blank {mediaType : String} (h : Blank mediaType) :
    checkMediaType mediaType = .error (.configuration .mediaTypeNotSet) := by
  rw [checkMediaType, Text.trim_eq_nil_iff.mpr h]
  rfl

theorem checkMediaType_of_not_blank {mediaType : String} (h : ¬ Blank mediaType) :
    checkMediaType mediaType = .ok () := by
  have hne : ¬ Text.trim mediaType.toList = [] := mt Text.trim_eq_nil_iff.mp h
  rw [checkMediaType, if_neg (by simpa using hne)]

namespace ProtectedWriter

open Archive (Traced)

variable {α ρ : Type} [Archive α] [RandomSource ρ]

/-! ## Behind the checks -/

/-- What opening comes to behind the checks: one draw by `fill` for the salt, and if it succeeds,
one `writeEntry` for the media type. -/
inductive Proceeds (mediaType : String) (parameters : Parameters) (digest : PasswordDigest)
    (archive : Traced α) (random : TracedRandom ρ) :
    Except (Refusal (Traced α) (TracedRandom ρ))
      (ProtectedWriter (Traced α) (TracedRandom ρ)) → Prop
  | undrawn {error : Error} {source : ρ}
      (hfill : RandomSource.fill random.source parameters.saltSize.toNat = (.error error, source)) :
      Proceeds mediaType parameters digest archive random (.error
        { error, archive, random := ⟨source, random.lengths ++ [parameters.saltSize.toNat]⟩ })
  | refused {salt : SizedBytes parameters.saltSize.toNat} {source : ρ} {error : Error} {inner : α}
      (hfill : RandomSource.fill random.source parameters.saltSize.toNat = (.ok salt, source))
      (hwrite : Archive.writeEntry archive.archive Vocabulary.mimetypePath mediaType.toUTF8.toList
        .stored = (.error error, inner)) :
      Proceeds mediaType parameters digest archive random (.error
        { error
          archive := ⟨inner, archive.calls ++ [⟨.write Vocabulary.mimetypePath
            mediaType.toUTF8.toList .stored, some error⟩]⟩
          random := ⟨source, random.lengths ++ [parameters.saltSize.toNat]⟩ })
  | opened {salt : SizedBytes parameters.saltSize.toNat} {source : ρ} {inner : α}
      {w : ProtectedWriter (Traced α) (TracedRandom ρ)}
      (hfill : RandomSource.fill random.source parameters.saltSize.toNat = (.ok salt, source))
      (hwrite : Archive.writeEntry archive.archive Vocabulary.mimetypePath mediaType.toUTF8.toList
        .stored = (.ok (), inner))
      (harchive : w.archive = ⟨inner, archive.calls ++ [⟨.write Vocabulary.mimetypePath
        mediaType.toUTF8.toList .stored, none⟩]⟩)
      (hrandom : w.random = ⟨source, random.lengths ++ [parameters.saltSize.toNat]⟩)
      (hphase : w.phase = .writing) (hsalt : w.salt = salt.val)
      (hkey : packageKey parameters digest salt.val = .ok w.key)
      (hparameters : w.parameters = parameters) (hmanifest : w.manifest = { mediaType })
      (hrecords : w.records = []) : Proceeds mediaType parameters digest archive random (.ok w)

section

variable {mediaType : String} {parameters : Parameters} {digest : PasswordDigest}
  {archive : Traced α} {random : TracedRandom ρ}

/-- Once the checks of `openWithDigest` are passed, `deriveKey` does not fail. -/
theorem proceeds_openWithDigest (hm : ¬ Blank mediaType)
    (ha : digest.algorithm = parameters.startKey) :
    Proceeds mediaType parameters digest archive random
      (openWithDigest mediaType parameters archive random digest) := by
  rw [openWithDigest, checkMediaType_of_not_blank hm]
  simp only [ha, ne_eq, not_true_eq_false, if_false, RandomSource.fill, Archive.writeEntry]
  cases hfill : RandomSource.fill random.source parameters.saltSize.toNat with
  | mk result source =>
      cases result with
      | error e => exact .undrawn hfill
      | ok salt =>
          obtain ⟨key, hkey⟩ := exists_packageKey parameters digest salt
          simp only [hkey]
          cases hwrite : Archive.writeEntry archive.archive Vocabulary.mimetypePath
              mediaType.toUTF8.toList .stored with
          | mk result inner =>
              cases result with
              | error e => exact .refused hfill hwrite
              | ok u => exact .opened hfill hwrite rfl rfl rfl rfl hkey rfl rfl rfl

/-- An error behind the checks is that of the draw or of the call. -/
theorem Proceeds.failed {refusal : Refusal (Traced α) (TracedRandom ρ)}
    (h : Proceeds mediaType parameters digest archive random (.error refusal)) :
    (RandomSource.fill random.source parameters.saltSize.toNat).1 = .error refusal.error
      ∨ (Archive.writeEntry archive.archive Vocabulary.mimetypePath mediaType.toUTF8.toList
        .stored).1 = .error refusal.error := by
  cases h with
  | undrawn hfill => exact .inl (by rw [hfill])
  | refused _ hwrite => exact .inr (by rw [hwrite])

end

/-! ## Opening -/

/-- How `openWithDigest` opens a package: the checks in their order, and then `Proceeds`. -/
structure OpensWithDigest (mediaType : String) (parameters : Parameters) (digest : PasswordDigest)
    (archive : Traced α) (random : TracedRandom ρ)
    (result : Except (Refusal (Traced α) (TracedRandom ρ))
      (ProtectedWriter (Traced α) (TracedRandom ρ))) : Prop where
  blank : Blank mediaType →
    result = .error { error := .configuration .mediaTypeNotSet, archive, random }
  mismatched : ¬ Blank mediaType → digest.algorithm ≠ parameters.startKey → result = .error
    { error := .configuration (.digestMismatch digest.algorithm parameters.startKey)
      archive, random }
  proceeds : ¬ Blank mediaType → digest.algorithm = parameters.startKey →
    Proceeds mediaType parameters digest archive random result

/-- How `openWithPassword` opens a package: the password is checked first, and its digest is never
one of another function than `Parameters.startKey`. -/
structure OpensWithPassword (mediaType : String) (parameters : Parameters) (password : Bytes)
    (archive : Traced α) (random : TracedRandom ρ)
    (answer : Except (Refusal (Traced α) (TracedRandom ρ))
      (ProtectedWriter (Traced α) (TracedRandom ρ)) × Bytes) : Prop where
  wiped : answer.2 = List.replicate password.length 0
  empty : password = [] → answer.1 = .error { error := .emptyPassword, archive, random }
  blank : password ≠ [] → Blank mediaType →
    answer.1 = .error { error := .configuration .mediaTypeNotSet, archive, random }
  proceeds : password ≠ [] → ¬ Blank mediaType →
    Proceeds mediaType parameters (.ofSecret parameters.startKey password) archive random answer.1
  unmismatched : ∀ refusal a b, answer.1 = .error refusal →
    refusal.error = .configuration (.digestMismatch a b) →
      (RandomSource.fill random.source parameters.saltSize.toNat).1 = .error refusal.error
        ∨ (Archive.writeEntry archive.archive Vocabulary.mimetypePath mediaType.toUTF8.toList
          .stored).1 = .error refusal.error

variable (mediaType : String) (parameters : Parameters) (archive : Traced α)
  (random : TracedRandom ρ)

theorem opensWithDigest (digest : PasswordDigest) :
    OpensWithDigest mediaType parameters digest archive random
      (openWithDigest mediaType parameters archive random digest) where
  blank hm := by rw [openWithDigest, checkMediaType_of_blank hm]
  mismatched hm ha := by
    rw [openWithDigest, checkMediaType_of_not_blank hm]
    exact if_pos ha
  proceeds hm ha := proceeds_openWithDigest hm ha

theorem openWithPassword_nil :
    openWithPassword mediaType parameters archive random []
      = (.error { error := .emptyPassword, archive, random }, []) := rfl

/-- A password that is not empty stands for its digest, `PasswordDigest.ofSecret`. -/
theorem openWithPassword_of_ne_nil {password : Bytes} (h : password ≠ []) :
    openWithPassword mediaType parameters archive random password
      = (openWithDigest mediaType parameters archive random
          (.ofSecret parameters.startKey password),
        List.replicate password.length 0) := by
  obtain ⟨b, bs, rfl⟩ := List.exists_cons_of_ne_nil h
  rfl

theorem opensWithPassword (password : Bytes) :
    OpensWithPassword mediaType parameters password archive random
      (openWithPassword mediaType parameters archive random password) := by
  by_cases hp : password = []
  · subst hp
    rw [openWithPassword_nil]
    refine ⟨rfl, fun _ => rfl, fun hne => absurd rfl hne, fun hne => absurd rfl hne, ?_⟩
    rintro refusal a b ⟨⟩ ⟨⟩
  · rw [openWithPassword_of_ne_nil mediaType parameters archive random hp]
    have hopens := opensWithDigest mediaType parameters archive random
      (.ofSecret parameters.startKey password)
    refine ⟨rfl, fun heq => absurd heq hp, fun _ => hopens.blank,
      fun _ hm => hopens.proceeds hm rfl, fun refusal a b hresult herror => ?_⟩
    dsimp only at hresult
    by_cases hm : Blank mediaType
    · have hblank := hopens.blank hm
      rw [hresult] at hblank
      cases hblank
      cases herror
    · have hproceeds := hopens.proceeds hm rfl
      rw [hresult] at hproceeds
      exact hproceeds.failed

/-- **Opening is ordered, and leaves nothing behind on failure.**  Whatever the media type, the
parameters, the archive, the source and the password are: the first check that fails ends the
opening with nothing done, then the salt is drawn, and then the media type is written; the buffer
of the password is zero behind it. -/
theorem opens_in_order :
    (∀ password, OpensWithPassword mediaType parameters password archive random
        (openWithPassword mediaType parameters archive random password))
      ∧ ∀ digest, OpensWithDigest mediaType parameters digest archive random
        (openWithDigest mediaType parameters archive random digest) :=
  ⟨opensWithPassword mediaType parameters archive random,
    opensWithDigest mediaType parameters archive random⟩

end ProtectedWriter

end OpenDocument
