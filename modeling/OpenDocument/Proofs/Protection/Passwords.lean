import Mathlib.Data.List.Forall2
import OpenDocument.Protection.Password

/-!
# OpenDocument.Proofs.Protection.Passwords

What becomes of a password.  Its buffer is wiped in any case.  The name of the hash function is
looked at first, then whether there is a password at all, and the digest is that of the bytes that
the buffer held before (`reduces_hashPasswordBy`).  A name counts in every spelling that differs in
the case of ASCII letters only; `SameSpelling` says so without any notion of a capital form.
-/

namespace OpenDocument

/-! ## Spellings -/

/-- The same character, or the small and the capital form of one ASCII letter. -/
def SameLetter (c d : Char) : Prop :=
  c = d ∨ (c.toNat = d.toNat + 32 ∧ d.isUpper) ∨ (d.toNat = c.toNat + 32 ∧ c.isUpper)

/-- Two texts that are the `SameLetter` at every place: they differ in the case of ASCII letters at
most. -/
def SameSpelling (s t : String) : Prop :=
  List.Forall₂ SameLetter s.toList t.toList

theorem isUpper_iff_toNat (c : Char) : c.isUpper ↔ 65 ≤ c.toNat ∧ c.toNat ≤ 90 := by
  have hcapital : ('A'.val ≤ c.val ∧ c.val ≤ 'Z'.val) ↔ 65 ≤ c.toNat ∧ c.toNat ≤ 90 := Iff.rfl
  rw [← hcapital]
  exact decide_eq_true_iff

/-- `Char.toUpper` moves small letters by 32 places and leaves all else. -/
theorem toNat_toUpper (c : Char) :
    c.toUpper.toNat = if 97 ≤ c.toNat ∧ c.toNat ≤ 122 then c.toNat - 32 else c.toNat := by
  have hsmall : ('a'.val ≤ c.val ∧ c.val ≤ 'z'.val) ↔ 97 ≤ c.toNat ∧ c.toNat ≤ 122 := Iff.rfl
  have hval : c.val.toNat = c.toNat := Char.toNat_val
  -- the distance is negative, so the sum of the words wraps around
  have hdistance : ('A'.val - 'a'.val).toNat = 4294967264 := rfl
  unfold Char.toUpper
  split
  · next h =>
      rw [hsmall] at h
      rw [if_pos h, ← Char.toNat_val, UInt32.toNat_add]
      omega
  · next h => rw [if_neg (hsmall.not.mp h)]

/-- `Char.toUpper` gives a character that is no small letter exactly for the `SameLetter`. -/
theorem toUpper_eq_iff {c d : Char} (hd : d.toUpper = d) : c.toUpper = d ↔ SameLetter c d := by
  have hcapital := congrArg Char.toNat hd
  rw [toNat_toUpper] at hcapital
  rw [SameLetter, ← Char.toNat_inj, ← Char.toNat_inj, toNat_toUpper, isUpper_iff_toNat,
    isUpper_iff_toNat]
  split at hcapital <;> split <;> omega

theorem map_toUpper_eq_iff {cs ds : List Char} (hd : ∀ d ∈ ds, d.toUpper = d) :
    cs.map Char.toUpper = ds ↔ List.Forall₂ SameLetter cs ds := by
  induction ds generalizing cs with
  | nil => rw [List.map_eq_nil_iff, List.forall₂_nil_right_iff]
  | cons d ds ih =>
      obtain ⟨hd, hds⟩ := List.forall_mem_cons.mp hd
      cases cs with
      | nil => simp
      | cons c cs =>
          rw [List.map_cons, List.cons.injEq, List.forall₂_cons, toUpper_eq_iff hd, ih hds]

/-- The capital form of a text is a given one without small letters exactly if the two have the
`SameSpelling`. -/
theorem ofList_map_toUpper_eq_iff {s t : String} (ht : ∀ d ∈ t.toList, d.toUpper = d) :
    String.ofList (s.toList.map Char.toUpper) = t ↔ SameSpelling s t := by
  rw [SameSpelling, ← map_toUpper_eq_iff ht, ← String.ofList_inj, String.ofList_toList]

namespace Hash.Algorithm

/-- The names of a hash function that `ofName?` is to find it by. -/
def spellings : Algorithm → List String
  | sha1 => ["SHA-1", "SHA1"]
  | sha256 => ["SHA-256", "SHA256"]

/-- A text names a hash function if it has the `SameSpelling` as one of its `spellings`. -/
def Names (name : String) (a : Algorithm) : Prop :=
  ∃ s ∈ a.spellings, SameSpelling name s

/-- None of the `spellings` has a small letter. -/
theorem toUpper_eq_of_mem_spellings {a : Algorithm} {s : String} (hs : s ∈ a.spellings) :
    ∀ d ∈ s.toList, d.toUpper = d := by
  have hall : a.spellings.all (fun s => s.toList.all fun d => d.toUpper == d) := by
    cases a <;> decide
  simpa using List.all_eq_true.mp hall s hs

/-- **A function is found by its names.**  `ofName?` gives the function that a text `Names`, and
none if there is no such one. -/
theorem ofName?_eq_some_iff {name : String} {a : Algorithm} :
    ofName? name = some a ↔ Names name a := by
  have hnames : Names name a ↔ ∃ s ∈ a.spellings, String.ofList (name.toList.map Char.toUpper) = s :=
    exists_congr fun s => and_congr_right fun hs =>
      (ofList_map_toUpper_eq_iff (toUpper_eq_of_mem_spellings hs)).symm
  rw [hnames, ofName?]
  cases a <;> simp only [spellings, List.exists_mem_cons_iff, List.not_mem_nil, false_and,
    exists_false, or_false] <;> split <;> simp_all

/-- Letters that are the same in another alphabet are not: this one becomes an `S` in capitals, but
it is no ASCII letter. -/
example : ofName? "ſha1" = none ∧ ofName? "sHa1" = some sha1 := by decide

end Hash.Algorithm

open Hash.Algorithm (Names ofName?_eq_some_iff)

/-! ## Passwords -/

/-- What reducing a password comes to, with the `answer` and what is left in the buffer.  The name
of the function is looked at first, then the password, and the buffer is zero behind it in any
case. -/
structure Reduces (secret : Bytes) (name : String)
    (answer : Except Error PasswordDigest × Bytes) : Prop where
  wiped : answer.2.length = secret.length ∧ ∀ b ∈ answer.2, b = 0
  unsupported : (∀ a, ¬ Names name a) → answer.1 = .error (.unsupportedDigest name)
  empty : ∀ a, Names name a → secret = [] → answer.1 = .error .emptyPassword
  sha1 : Names name .sha1 → secret ≠ [] →
    ∃ d, answer.1 = .ok d ∧ d.algorithm = .sha1 ∧ d.bytes = Hash.sha1 secret ∧ d.bytes.length = 20
  sha256 : Names name .sha256 → secret ≠ [] →
    ∃ d, answer.1 = .ok d ∧ d.algorithm = .sha256 ∧ d.bytes = Hash.sha256 secret
      ∧ d.bytes.length = 32
  resolved : ∀ a, Names name a → answer = hashPassword secret a

/-- Nothing but zeros is left in a wiped buffer, and it is as long as before. -/
theorem wiped (buffer : Bytes) :
    (wipe buffer).length = buffer.length ∧ ∀ b ∈ wipe buffer, b = 0 :=
  ⟨List.length_replicate, fun _ => List.eq_of_mem_replicate⟩

/-- `hashPassword` gives the digest of a password that is not empty, and a buffer that was wiped. -/
theorem hashPassword_of_ne_nil {secret : Bytes} (h : secret ≠ []) (a : Hash.Algorithm) :
    hashPassword secret a = (.ok (.ofSecret a secret), wipe secret) := by
  rw [hashPassword, if_neg (by simpa using h)]

theorem hashPasswordBy_of_names {name : String} {a : Hash.Algorithm} (h : Names name a)
    (secret : Bytes) : hashPasswordBy secret name = hashPassword secret a := by
  rw [hashPasswordBy, ofName?_eq_some_iff.mpr h]

theorem hashPasswordBy_of_forall_not_names {name : String} (h : ∀ a, ¬ Names name a)
    (secret : Bytes) :
    hashPasswordBy secret name = (.error (.unsupportedDigest name), wipe secret) := by
  have hnone : Hash.Algorithm.ofName? name = none :=
    Option.eq_none_iff_forall_ne_some.mpr fun a => mt ofName?_eq_some_iff.mp (h a)
  rw [hashPasswordBy, hnone]

theorem wipe_hashPasswordBy (secret : Bytes) (name : String) :
    (hashPasswordBy secret name).2 = wipe secret := by
  rw [hashPasswordBy]
  split <;> rfl

/-- **A password is wiped, and its digest is that of what it was.**  Whatever buffer and name are
given, the answer is as `Reduces` says, and all spellings of one function's names give the same. -/
theorem reduces_hashPasswordBy (secret : Bytes) :
    (∀ name, Reduces secret name (hashPasswordBy secret name))
      ∧ ∀ a name name', Names name a → Names name' a →
        hashPasswordBy secret name = hashPasswordBy secret name' := by
  refine ⟨fun name => ?_, fun a name name' h h' => ?_⟩
  · refine ⟨?_, fun h => ?_, fun a h hempty => ?_, fun h hne => ?_, fun h hne => ?_, fun a h => ?_⟩
    · rw [wipe_hashPasswordBy]
      exact wiped secret
    · rw [hashPasswordBy_of_forall_not_names h]
    · rw [hashPasswordBy_of_names h, hempty]
      rfl
    · rw [hashPasswordBy_of_names h, hashPassword_of_ne_nil hne]
      exact ⟨_, rfl, rfl, rfl, PasswordDigest.length_bytes _⟩
    · rw [hashPasswordBy_of_names h, hashPassword_of_ne_nil hne]
      exact ⟨_, rfl, rfl, rfl, PasswordDigest.length_bytes _⟩
    · exact hashPasswordBy_of_names h secret
  · rw [hashPasswordBy_of_names h, hashPasswordBy_of_names h']

end OpenDocument
