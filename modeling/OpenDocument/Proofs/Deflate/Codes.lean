import Mathlib.Algebra.Order.Group.Nat
import Mathlib.Data.List.Induction
import OpenDocument.Proofs.Deflate.Format

/-!
# OpenDocument.Proofs.Deflate.Codes

The words of a code do not begin with one another, so its tree leads each of them to its symbol
(`Tree.reads_ofLengths`).  A word stands for all bit strings of the greatest length that begin with
it; these are consecutive numbers, and shorter words come first.  The numbers of two words do not
overlap, and all of them fit if the weight of the code is not too great.
-/

namespace OpenDocument.Deflate

/-! ## The words of the symbols -/

/-- The number of the word of a symbol whose word has a length: `firstNumber` of the length, and one
more for each symbol of this length in front. -/
def wordNumber (lengths : List Nat) (s l : Nat) : Nat :=
  firstNumber lengths l + (lengths.take s).count l

/-- The words of one length have consecutive numbers. -/
theorem count_take_add_one {lengths : List Nat} {s l : Nat} (hs : lengths[s]? = some l) :
    (lengths.take (s + 1)).count l = (lengths.take s).count l + 1 := by
  rw [List.take_add_one, hs, Option.toList_some, List.count_append, List.count_singleton_self]

theorem getElem?_assignWords {next : Array Nat} {lengths : List Nat}
    (h : ∀ l ∈ lengths, l < next.size) (s : Nat) :
    (assignWords next lengths)[s]?
      = lengths[s]?.map fun l => word l (next.getD l 0 + (lengths.take s).count l) := by
  induction lengths generalizing next s with
  | nil => simp [assignWords]
  | cons l rest ih =>
      obtain ⟨hl, hrest⟩ := List.forall_mem_cons.mp h
      cases s with
      | zero => simp [assignWords]
      | succ s =>
          rw [assignWords, List.getElem?_cons_succ, ih (by simpa using hrest),
            List.getElem?_cons_succ]
          congr 1
          funext m
          have hnext : (next.setIfInBounds l (next.getD l 0 + 1)).getD m 0
              = next.getD m 0 + if l == m then 1 else 0 := by
            simp only [Array.getD_eq_getD_getElem?, Array.getElem?_setIfInBounds]
            by_cases hm : l = m
            · simp [← hm, hl]
            · simp [hm]
          rw [hnext, List.take_succ_cons, List.count_cons, Nat.add_assoc,
            Nat.add_comm (if l == m then 1 else 0)]

/-- The word of a symbol in `codeWords` is that of its `wordNumber`. -/
theorem getElem?_codeWords {lengths : List Nat} (h : ∀ l ∈ lengths, l ≤ maxLength) (s : Nat) :
    (codeWords lengths)[s]? = lengths[s]?.map fun l => word l (wordNumber lengths s l) := by
  rw [codeWords, getElem?_assignWords (by simpa [Nat.lt_succ_iff] using h)]
  cases hs : lengths[s]? with
  | none => rfl
  | some l =>
      have hl : l < maxLength + 1 := Nat.lt_succ_of_le (h l (List.mem_of_getElem? hs))
      have hnext : ((Array.range (maxLength + 1)).map (firstNumber lengths)).getD l 0
          = firstNumber lengths l := by
        simp [Array.getD_eq_getD_getElem?, hl]
      rw [Option.map_some, Option.map_some, hnext, wordNumber]

@[simp] theorem length_word (l n : Nat) : (word l n).length = l := by
  rw [word, List.length_reverse, Bits.length_field]

/-- A symbol has a word in `codeWords` of the length that is given for it, unless that is zero. -/
theorem spells_codeWords_iff {lengths : List Nat} (h : ∀ l ∈ lengths, l ≤ maxLength) {s : Nat}
    {bits : Bits} :
    Spells (codeWords lengths) s bits
      ↔ ∃ l, lengths[s]? = some l ∧ l ≠ 0 ∧ bits = word l (wordNumber lengths s l) := by
  have hne (l n : Nat) : word l n ≠ [] ↔ l ≠ 0 := by
    rw [← List.length_pos_iff, length_word, Nat.pos_iff_ne_zero]
  rw [Spells, getElem?_codeWords h, Option.map_eq_some_iff]
  constructor
  · rintro ⟨⟨l, hs, rfl⟩, hbits⟩
    exact ⟨l, hs, (hne ..).mp hbits, rfl⟩
  · rintro ⟨l, hs, h0, rfl⟩
    exact ⟨⟨l, hs, rfl⟩, (hne ..).mpr h0⟩

/-! ## Weights -/

/-- The part of all bit strings of `maxLength` bits that begin with a word shorter than `b`. -/
def weightBelow (lengths : List Nat) (b : Nat) : Nat :=
  (lengths.map fun l => if l ≠ 0 ∧ l < b then 2 ^ (maxLength - l) else 0).sum

theorem weightBelow_cons (l : Nat) (rest : List Nat) (b : Nat) :
    weightBelow (l :: rest) b
      = (if l ≠ 0 ∧ l < b then 2 ^ (maxLength - l) else 0) + weightBelow rest b := by
  rw [weightBelow, List.map_cons, List.sum_cons, weightBelow]

theorem weight_eq_weightBelow {lengths : List Nat} (h : ∀ l ∈ lengths, l ≤ maxLength) :
    weight lengths = weightBelow lengths (maxLength + 1) := by
  induction lengths with
  | nil => rfl
  | cons l rest ih =>
      obtain ⟨hl, hrest⟩ := List.forall_mem_cons.mp h
      have hlt : l < maxLength + 1 := Nat.lt_succ_of_le hl
      rw [weightBelow_cons, ← ih hrest, weight]
      by_cases h0 : l = 0 <;> simp [weight, h0, hlt]

theorem coverage_filter (lengths : List Nat) :
    Tree.coverage (lengths.filter (· != 0)) = weight lengths := by
  rw [Tree.coverage, weight]
  induction lengths.filter (· != 0) with
  | nil => rfl
  | cons l rest ih =>
      rw [List.foldr_cons, ih, Nat.one_shiftLeft, List.map_cons, List.sum_cons]

theorem weightBelow_le {lengths : List Nat} {a b : Nat} (h : a ≤ b) :
    weightBelow lengths a ≤ weightBelow lengths b := by
  induction lengths with
  | nil => exact Nat.le_refl _
  | cons l rest ih =>
      rw [weightBelow_cons, weightBelow_cons]
      refine Nat.add_le_add ?_ ih
      split
      · next hl => rw [if_pos ⟨hl.1, Nat.lt_of_lt_of_le hl.2 h⟩]
      · exact Nat.zero_le _

/-- No word is shorter than one bit. -/
theorem weightBelow_of_le_one (lengths : List Nat) {b : Nat} (hb : b ≤ 1) :
    weightBelow lengths b = 0 := by
  induction lengths with
  | nil => rfl
  | cons l rest ih => rw [weightBelow_cons, ih, if_neg (by omega)]

theorem weightBelow_succ (lengths : List Nat) {b : Nat} (hb : b ≠ 0) :
    weightBelow lengths (b + 1)
      = weightBelow lengths b + lengths.count b * 2 ^ (maxLength - b) := by
  induction lengths with
  | nil => simp [weightBelow]
  | cons l rest ih =>
      rw [weightBelow_cons, weightBelow_cons, ih, List.count_cons]
      rcases Nat.lt_trichotomy l b with hl | rfl | hl
      · have hne : ¬ (l == b) = true := by
          simp only [beq_iff_eq]
          omega
        simp only [hl, Nat.lt_succ_of_lt hl, if_neg hne, Nat.add_zero, Nat.add_assoc]
      · simp only [hb, Nat.lt_irrefl, Nat.lt_succ_self, BEq.rfl, ne_eq, not_false_eq_true, and_true,
          and_false, if_true, if_false, Nat.add_mul, Nat.one_mul]
        omega
      · have hne : ¬ (l == b) = true := by
          simp only [beq_iff_eq]
          omega
        simp only [show ¬ l < b + 1 by omega, show ¬ l < b by omega, if_neg hne, and_false,
          if_false, Nat.zero_add, Nat.add_zero]

/-- `firstNumber` of a length begins where all shorter words end. -/
theorem firstNumber_mul (lengths : List Nat) {b : Nat} (hb : b ≤ maxLength) :
    firstNumber lengths b * 2 ^ (maxLength - b) = weightBelow lengths b := by
  induction b with
  | zero => rw [firstNumber, Nat.zero_mul, weightBelow_of_le_one lengths (Nat.zero_le 1)]
  | succ b ih =>
      have hpow : 2 * 2 ^ (maxLength - (b + 1)) = 2 ^ (maxLength - b) := by
        rw [← Nat.pow_succ', show (maxLength - (b + 1)).succ = maxLength - b by omega]
      rw [firstNumber, Nat.mul_comm 2, Nat.mul_assoc, hpow, Nat.add_mul, ih (by omega)]
      split
      · next h0 =>
          subst h0
          rw [Nat.zero_mul, weightBelow_of_le_one lengths (Nat.zero_le 1),
            weightBelow_of_le_one lengths (Nat.le_refl 1)]
      · next h0 => rw [weightBelow_succ lengths h0]

/-! ## The places of words

The bit strings of the greatest length that begin with the word of a symbol are the numbers from
`wordNumber * 2 ^ (maxLength - l)` to those of the next number. -/

section Places

variable {lengths : List Nat} (h : ∀ l ∈ lengths, l ≤ maxLength)

include h

/-- A word ends where the longer ones begin. -/
theorem wordNumber_succ_mul_le {s l : Nat} (hs : lengths[s]? = some l) (hl : l ≠ 0) :
    (wordNumber lengths s l + 1) * 2 ^ (maxLength - l) ≤ weightBelow lengths (l + 1) := by
  have hcount : (lengths.take s).count l + 1 ≤ lengths.count l := by
    rw [← count_take_add_one hs]
    exact (List.take_sublist (s + 1) lengths).count_le l
  rw [weightBelow_succ lengths hl, ← firstNumber_mul lengths (h l (List.mem_of_getElem? hs)),
    ← Nat.add_mul, wordNumber, Nat.add_assoc]
  exact Nat.mul_le_mul_right _ (Nat.add_le_add_left hcount _)

/-- The place of a word lies in front of those of longer words. -/
theorem wordNumber_succ_mul_le_of_lt {s t l m : Nat} (hs : lengths[s]? = some l)
    (ht : lengths[t]? = some m) (hl : l ≠ 0) (hlm : l < m) :
    (wordNumber lengths s l + 1) * 2 ^ (maxLength - l)
      ≤ wordNumber lengths t m * 2 ^ (maxLength - m) := by
  calc (wordNumber lengths s l + 1) * 2 ^ (maxLength - l)
      ≤ weightBelow lengths (l + 1) := wordNumber_succ_mul_le h hs hl
    _ ≤ weightBelow lengths m := weightBelow_le hlm
    _ = firstNumber lengths m * 2 ^ (maxLength - m) :=
        (firstNumber_mul lengths (h m (List.mem_of_getElem? ht))).symm
    _ ≤ wordNumber lengths t m * 2 ^ (maxLength - m) :=
        Nat.mul_le_mul_right _ (Nat.le_add_right ..)

/-- The front of a longer word has a greater number. -/
theorem wordNumber_lt_div {s t l m : Nat} (hs : lengths[s]? = some l) (ht : lengths[t]? = some m)
    (hl : l ≠ 0) (hlm : l < m) : wordNumber lengths s l < wordNumber lengths t m / 2 ^ (m - l) := by
  have hmax := h m (List.mem_of_getElem? ht)
  have hpow : 2 ^ (maxLength - l) = 2 ^ (m - l) * 2 ^ (maxLength - m) := by
    rw [← Nat.pow_add]
    congr 1
    omega
  have hplace := wordNumber_succ_mul_le_of_lt h hs ht hl hlm
  rw [hpow, ← Nat.mul_assoc] at hplace
  exact (Nat.le_div_iff_mul_le (Nat.two_pow_pos _)).mpr
    (Nat.le_of_mul_le_mul_right hplace (Nat.two_pow_pos _))

/-- The `wordNumber` of a symbol fits into its length. -/
theorem wordNumber_lt (hweight : weight lengths ≤ 2 ^ maxLength) {s l : Nat}
    (hs : lengths[s]? = some l) (hl : l ≠ 0) : wordNumber lengths s l < 2 ^ l := by
  have hle := h l (List.mem_of_getElem? hs)
  have hmul : (wordNumber lengths s l + 1) * 2 ^ (maxLength - l)
      ≤ 2 ^ l * 2 ^ (maxLength - l) := by
    calc (wordNumber lengths s l + 1) * 2 ^ (maxLength - l)
        ≤ weightBelow lengths (l + 1) := wordNumber_succ_mul_le h hs hl
      _ ≤ weightBelow lengths (maxLength + 1) := weightBelow_le (Nat.succ_le_succ hle)
      _ = weight lengths := (weight_eq_weightBelow h).symm
      _ ≤ 2 ^ maxLength := hweight
      _ = 2 ^ l * 2 ^ (maxLength - l) := by rw [← Nat.pow_add, Nat.add_sub_cancel' hle]
  exact Nat.le_of_mul_le_mul_right hmul (Nat.two_pow_pos _)

end Places

theorem wordNumber_lt_of_lt {lengths : List Nat} {s t l : Nat} (hs : lengths[s]? = some l)
    (hst : s < t) : wordNumber lengths s l < wordNumber lengths t l := by
  have hle : (lengths.take (s + 1)).count l ≤ (lengths.take t).count l :=
    (List.take_sublist_take_left hst).count_le l
  rw [count_take_add_one hs] at hle
  exact Nat.add_lt_add_left hle _

/-! ## Words that begin with one another -/

/-- No word of a symbol begins with the word of another one. -/
def PrefixFree (words : List Bits) : Prop :=
  ∀ s t v w, Spells words s v → Spells words t w → v <+: w → s = t

/-- The front of a `word` is the word of the high bits of its number. -/
theorem word_add (v w n : Nat) : word (v + w) n = word v (n / 2 ^ w) ++ word w n := by
  rw [word, Nat.add_comm, Bits.field_add, List.reverse_append, word, word]

theorem word_inj {l a b : Nat} (ha : a < 2 ^ l) (hb : b < 2 ^ l) (h : word l a = word l b) :
    a = b := by
  have hvalue := congrArg Bits.value (List.reverse_inj.mp h)
  rwa [Bits.value_field l a ha, Bits.value_field l b hb] at hvalue

/-- The number of the front of a word. -/
theorem eq_div_of_word_prefix {l m a b : Nat} (ha : a < 2 ^ l) (hb : b < 2 ^ m)
    (h : word l a <+: word m b) : l ≤ m ∧ a = b / 2 ^ (m - l) := by
  have hle : l ≤ m := by simpa using h.length_le
  refine ⟨hle, ?_⟩
  have hdiv : b / 2 ^ (m - l) < 2 ^ l := by
    rw [Nat.div_lt_iff_lt_mul (Nat.two_pow_pos _), ← Nat.pow_add, Nat.add_sub_cancel' hle]
    exact hb
  obtain ⟨rest, hrest⟩ := h
  have hsplit := word_add l (m - l) b
  rw [Nat.add_sub_cancel' hle] at hsplit
  rw [hsplit] at hrest
  exact word_inj ha hdiv (List.append_inj_left hrest (by simp))

/-- **The words of a code do not begin with one another**: `codeWords` is `PrefixFree`, if there is
room for them. -/
theorem prefixFree_codeWords {lengths : List Nat} (h : ∀ l ∈ lengths, l ≤ maxLength)
    (hweight : weight lengths ≤ 2 ^ maxLength) : PrefixFree (codeWords lengths) := by
  intro s t v w hv hw hvw
  obtain ⟨l, hs, hl, rfl⟩ := (spells_codeWords_iff h).mp hv
  obtain ⟨m, ht, hm, rfl⟩ := (spells_codeWords_iff h).mp hw
  obtain ⟨hlm, hdiv⟩ :=
    eq_div_of_word_prefix (wordNumber_lt h hweight hs hl) (wordNumber_lt h hweight ht hm) hvw
  rcases Nat.lt_or_eq_of_le hlm with hlt | rfl
  · exact absurd hdiv (Nat.ne_of_lt (wordNumber_lt_div h hs ht hl hlt))
  · -- words of one length have different numbers
    rw [Nat.sub_self, Nat.pow_zero, Nat.div_one] at hdiv
    rcases Nat.lt_trichotomy s t with hst | rfl | hts
    · exact absurd hdiv (Nat.ne_of_lt (wordNumber_lt_of_lt hs hst))
    · rfl
    · exact absurd hdiv (Nat.ne_of_gt (wordNumber_lt_of_lt ht hts))

/-! ## Trees -/

namespace Tree

/-- The words of a code lead to their symbols by `Tree.find?`. -/
def Reads (t : Tree) (words : List Bits) : Prop :=
  ∀ s w, Spells words s w → t.find? w = some s

theorem find?_insert_self (s : Nat) (w : Bits) (t : Tree) : (insert s w t).find? w = some s := by
  induction w generalizing t with
  | nil => rfl
  | cons b w ih => cases b <;> simp [insert, find?, ih]

/-- A word keeps its symbol behind an `insert` of another one, unless one of them begins with the
other. -/
theorem find?_insert {t : Tree} {r s : Nat} {v w : Bits} (h : t.find? v = some r)
    (hvw : ¬ v <+: w) (hwv : ¬ w <+: v) : (insert s w t).find? v = some r := by
  induction w generalizing t v with
  | nil => exact absurd (List.nil_prefix) hwv
  | cons b w ih =>
      cases v with
      | nil => exact absurd (List.nil_prefix) hvw
      | cons c v =>
          cases t with
          | empty => simp [find?] at h
          | leaf q => simp [find?] at h
          | node z o =>
              rw [List.cons_prefix_cons] at hvw hwv
              cases b <;> cases c <;> simp_all [insert, find?, children]

/-- The tree into which `insert` has put all words, one after the other, `Reads` them. -/
theorem reads_foldl_insert {words : List Bits} (hfree : PrefixFree words) :
    Reads (words.zipIdx.foldl (fun t (w, s) => if w.isEmpty then t else t.insert s w) empty)
      words := by
  induction words using List.reverseRecOn with
  | nil => exact fun s w h => by simp [Spells] at h
  | append_singleton words w ih =>
      have hkeep {s : Nat} {v : Bits} (hv : Spells words s v) : Spells (words ++ [w]) s v :=
        ⟨by rw [List.getElem?_append_left (List.getElem?_eq_some_iff.mp hv.1).1, hv.1], hv.2⟩
      have ih := ih fun s t u v hu hv => hfree s t u v (hkeep hu) (hkeep hv)
      intro s v hv
      rw [List.zipIdx_append, List.foldl_append, List.zipIdx_singleton, List.foldl_cons,
        List.foldl_nil]
      rcases Nat.lt_trichotomy s words.length with hs | rfl | hs
      · have hv' : Spells words s v := ⟨by rw [← hv.1, List.getElem?_append_left hs], hv.2⟩
        by_cases hw : w = []
        · simpa [hw] using ih s v hv'
        · have hlast : Spells (words ++ [w]) words.length w := ⟨by simp, hw⟩
          have hvw : ¬ v <+: w := fun hp => Nat.ne_of_lt hs (hfree _ _ _ _ hv hlast hp)
          have hwv : ¬ w <+: v := fun hp => Nat.ne_of_gt hs (hfree _ _ _ _ hlast hv hp)
          simpa [hw] using find?_insert (ih s v hv') hvw hwv
      · have hvw : w = v := by simpa using hv.1
        subst hvw
        simpa [hv.2] using find?_insert_self _ _ _
      · have := (List.getElem?_eq_some_iff.mp hv.1).1
        rw [List.length_append, List.length_singleton] at this
        omega

/-- **The tree of a code leads every word to its symbol**, if there is room for all words:
`ofLengths` makes a tree that `Reads` them. -/
theorem reads_ofLengths {lengths : List Nat} (h : ∀ l ∈ lengths, l ≤ maxLength)
    (hweight : weight lengths ≤ 2 ^ maxLength) : (ofLengths lengths).Reads (codeWords lengths) :=
  reads_foldl_insert (prefixFree_codeWords h hweight)

end Tree

/-! ## The codes of a block -/

/-- The words of the fixed codes follow from their lengths. -/
theorem literals_fixedCodes : fixedCodes.literals = codeWords fixedLengths := by
  decide +kernel

theorem distances_fixedCodes : fixedCodes.distances = codeWords fixedDistanceLengths := by
  decide +kernel

theorem reads_fixedTree : fixedTree.Reads fixedCodes.literals := by
  rw [literals_fixedCodes]
  exact Tree.reads_ofLengths (by decide +kernel) (by decide +kernel)

theorem reads_fixedDistanceTree : fixedDistanceTree.Reads fixedCodes.distances := by
  rw [distances_fixedCodes]
  exact Tree.reads_ofLengths (by decide +kernel) (by decide +kernel)

/-- A `Complete` code has a word. -/
theorem Complete.filter_ne_nil {lengths : List Nat} (h : Complete lengths) :
    lengths.filter (· != 0) ≠ [] := by
  intro hnil
  have hweight := h.weight_eq
  rw [weight, hnil] at hweight
  exact absurd hweight (by decide)

theorem Complete.reads {lengths : List Nat} (h : Complete lengths) :
    (Tree.ofLengths lengths).Reads (codeWords lengths) :=
  Tree.reads_ofLengths h.le_maxLength (Nat.le_of_eq h.weight_eq)

theorem Complete.treeOf_eq {lengths : List Nat} (h : Complete lengths) (mayBeSparse : Bool) :
    treeOf mayBeSparse lengths = .ok (Tree.ofLengths lengths) := by
  have hcoverage : Tree.coverage (lengths.filter (· != 0)) = 1 <<< maxLength := by
    rw [coverage_filter, h.weight_eq, Nat.one_shiftLeft]
  rw [treeOf, Tree.ofDescription?]
  simp only [List.isEmpty_iff, h.filter_ne_nil, and_false, if_false, hcoverage, if_true]

/-- `lengthTree` makes of the lengths of a `Complete` code a tree that reads its words. -/
theorem Complete.exists_lengthTree {lengths : List Nat} (h : Complete lengths) :
    ∃ t, lengthTree lengths = .ok t ∧ t.Reads (codeWords lengths) := by
  refine ⟨_, ?_, h.reads⟩
  have hall : ¬ (lengths.all (· == 0)) = true := by
    intro hall
    refine h.filter_ne_nil (List.filter_eq_nil_iff.mpr fun l hl => ?_)
    simpa using List.all_eq_true.mp hall l hl
  rw [lengthTree, if_neg hall, h.treeOf_eq]

theorem Usable.le_maxLength {lengths : List Nat} (h : Usable lengths) :
    ∀ l ∈ lengths, l ≤ maxLength := by
  intro l hl
  rcases Nat.eq_zero_or_pos l with rfl | hpos
  · exact Nat.zero_le _
  · have hmem : l ∈ lengths.filter (· != 0) := by simp [hl, Nat.ne_of_gt hpos]
    rcases h with h | h | h
    · exact h.le_maxLength l hl
    · rw [h, List.mem_singleton] at hmem
      rw [hmem]
      decide
    · rw [h] at hmem
      exact absurd hmem List.not_mem_nil

/-- `treeOf` makes of the lengths of a `Usable` code a tree that reads its words. -/
theorem Usable.exists_treeOf {lengths : List Nat} (h : Usable lengths) :
    ∃ t, treeOf true lengths = .ok t ∧ t.Reads (codeWords lengths) := by
  have hmax := h.le_maxLength
  rcases h with h | h | h
  · exact ⟨_, h.treeOf_eq true, h.reads⟩
  · refine ⟨_, ?_, Tree.reads_ofLengths hmax ?_⟩
    · rw [treeOf, Tree.ofDescription?, h]
      rfl
    · rw [weight, h]
      decide
  · refine ⟨.node .empty .empty, ?_, fun s w hw => ?_⟩
    · rw [treeOf, Tree.ofDescription?, h]
      rfl
    · obtain ⟨l, hs, hl, -⟩ := (spells_codeWords_iff hmax).mp hw
      have hnone := List.filter_eq_nil_iff.mp h l (List.mem_of_getElem? hs)
      exact absurd (bne_iff_ne.mpr hl) hnone

end OpenDocument.Deflate
