import OpenDocument.Deflate.Search

/-!
# OpenDocument.Proofs.Deflate.Tokens

The tokens that the search finds stand for the data: applied one after the other they give it back,
and every copy has a length and a distance that the format can express.  The proof needs nothing of
the history; a proposal is compared again before it is used.
-/

namespace OpenDocument.Deflate

/-- A `Token` that the format can express: a copy has a length and a distance in range. -/
def Token.Expressible : Token → Prop
  | .literal _ => True
  | .copy length distance =>
    (minCopy ≤ length ∧ length ≤ maxCopy) ∧ 1 ≤ distance ∧ distance ≤ maxDistance

/-- What tokens make of an output.  A copy adds a piece each byte of which is the one `distance`
bytes in front of it; that may be a byte of the piece itself. -/
inductive Expands : List Token → (out content : Array UInt8) → Prop
  | nil {out : Array UInt8} : Expands [] out out
  | literal {b : UInt8} {ts : List Token} {out content : Array UInt8}
      (h : Expands ts (out.push b) content) : Expands (.literal b :: ts) out content
  | copy {length distance : Nat} {ts : List Token} {out piece content : Array UInt8}
      (hlength : piece.size = length) (hpos : 0 < distance) (hinside : distance ≤ out.size)
      (hpiece : ∀ k < length,
        (out ++ piece)[out.size + k]? = (out ++ piece)[out.size + k - distance]?)
      (h : Expands ts (out ++ piece) content) : Expands (.copy length distance :: ts) out content

/-! ## Copies -/

/-- The bytes that `commonLength` has compared are equal. -/
theorem getD_eq_of_lt_commonLength {data : Array UInt8} {q p n j : Nat}
    (h : j < commonLength data q p n) : data.getD (q + j) 0 = data.getD (p + j) 0 := by
  induction n generalizing q p j with
  | zero => simp [commonLength] at h
  | succ n ih =>
      rw [commonLength] at h
      by_cases hb : data.getD q 0 = data.getD p 0
      · rw [if_pos hb] at h
        cases j with
        | zero => exact hb
        | succ j =>
            have := ih (q := q + 1) (p := p + 1) (j := j) (by omega)
            rwa [Nat.add_right_comm q 1 j, Nat.add_right_comm p 1 j] at this
      · rw [if_neg hb] at h
        omega

/-- A copy that `propose` gives has a length and a distance in range, does not run beyond the data,
and its bytes are those that begin its distance further in front. -/
theorem History.propose_eq_some {h : History} {data : Array UInt8} {p n d : Nat}
    (hp : h.propose data p = some (n, d)) :
    (Token.copy n d).Expressible ∧ d ≤ p ∧ n ≤ data.size - p
      ∧ ∀ j < n, data.getD (p - d + j) 0 = data.getD (p + j) 0 := by
  simp only [propose, Option.bind_eq_bind, Option.bind_eq_some_iff, Option.pure_def,
    Option.some.injEq, Prod.mk.injEq] at hp
  obtain ⟨-, -, q, -, n', hn, rfl, rfl⟩ := hp
  unfold copyLength? at hn
  by_cases hq : q < p ∧ p - q ≤ maxDistance
  · rw [if_pos hq, Option.ite_none_right_eq_some, Option.some.injEq] at hn
    obtain ⟨hmin, rfl⟩ := hn
    have hle := commonLength_le data q p (min maxCopy (data.size - p))
    refine ⟨⟨⟨hmin, by omega⟩, by omega, hq.2⟩, by omega, by omega, ?_⟩
    intro j hj
    rw [show p - (p - q) = q by omega]
    exact getD_eq_of_lt_commonLength hj
  · rw [if_neg hq] at hn
    cases hn

theorem push_extract {data : Array UInt8} {p : Nat} (h : p < data.size) :
    (data.extract 0 p).push data[p] = data.extract 0 (p + 1) := by
  rw [Array.extract_succ_right (Nat.succ_pos p) h]

/-- Bytes that repeat are continued by `copyBytes` as the data is. -/
theorem copyBytes_extract {data : Array UInt8} {p n d : Nat} (hd : 0 < d) (hp : d ≤ p)
    (hn : p + n ≤ data.size)
    (h : ∀ j < n, data.getD (p - d + j) 0 = data.getD (p + j) 0) :
    copyBytes d n (data.extract 0 p) = data.extract 0 (p + n) := by
  induction n generalizing p with
  | zero => rfl
  | succ n ih =>
      have hsize : (data.extract 0 p).size = p := by
        rw [Array.size_extract]
        omega
      have hlt : p < data.size := by omega
      have hbyte : (data.extract 0 p).getD (p - d) 0 = data[p] := by
        have h0 := h 0 (by omega)
        rw [Array.getD_eq_getD_getElem?, Array.getElem?_extract, if_pos (by omega), Nat.zero_add,
          ← Array.getD_eq_getD_getElem?]
        rw [Nat.add_zero, Nat.add_zero] at h0
        rw [h0, Array.getD_eq_getD_getElem?, Array.getElem?_eq_getElem hlt, Option.getD_some]
      rw [copyBytes, hsize, hbyte, push_extract hlt, ih (by omega) (by omega)]
      · rw [Nat.add_right_comm, Nat.add_assoc]
      · intro j hj
        have := h (j + 1) (by omega)
        rwa [show p - d + (j + 1) = p + 1 - d + j by omega,
          show p + (j + 1) = p + 1 + j by omega] at this

/-- A piece that repeats what is in front of it is what `Token.apply` adds for a copy. -/
theorem Token.apply_copy {length distance : Nat} {out piece : Array UInt8}
    (hlength : piece.size = length) (hpos : 0 < distance) (hinside : distance ≤ out.size)
    (hpiece : ∀ k < length,
      (out ++ piece)[out.size + k]? = (out ++ piece)[out.size + k - distance]?) :
    (Token.copy length distance).apply out = some (out ++ piece) := by
  have hsize : (out ++ piece).size = out.size + length := by rw [Array.size_append, hlength]
  have hfront : (out ++ piece).extract 0 out.size = out := by simp
  have hcopy := copyBytes_extract hpos hinside (Nat.le_of_eq hsize.symm) (fun j hj => by
    rw [Array.getD_eq_getD_getElem?, Array.getD_eq_getD_getElem?, hpiece j hj,
      show out.size + j - distance = out.size - distance + j by omega])
  rw [hfront, ← hsize, Array.extract_size] at hcopy
  rw [Token.apply, if_pos ⟨hpos, hinside⟩, hcopy]

/-! ## The search -/

theorem getElem?_extract_zero {data : Array UInt8} {i n : Nat} (hi : i < n) (hn : n ≤ data.size) :
    (data.extract 0 n)[i]? = some (data.getD i 0) := by
  rw [Array.getElem?_extract, if_pos (by omega), Nat.zero_add, Array.getD_eq_getD_getElem?,
    Array.getElem?_eq_getElem (by omega), Option.getD_some]

/-- A copy that `propose` gives expands to the data that it stands for. -/
theorem expands_copy {data : Array UInt8} {ts : List Token} {h : History} {p n d : Nat}
    (hp : h.propose data p = some (n, d)) (hle : p ≤ data.size)
    (hrest : Expands ts (data.extract 0 (p + n)) data) :
    Expands (.copy n d :: ts) (data.extract 0 p) data := by
  obtain ⟨⟨-, hpos, -⟩, hd, hn, hcopy⟩ := History.propose_eq_some hp
  have hsize : (data.extract 0 p).size = p := by
    rw [Array.size_extract]
    omega
  have hpiece : data.extract 0 p ++ data.extract p (p + n) = data.extract 0 (p + n) := by
    rw [Array.extract_append_extract]
    simp
  have hlength : (data.extract p (p + n)).size = n := by
    rw [Array.size_extract]
    omega
  refine .copy hlength hpos (by omega) (fun k hk => ?_) (hpiece ▸ hrest)
  rw [hpiece, hsize, getElem?_extract_zero (by omega) (by omega),
    getElem?_extract_zero (by omega) (by omega), ← hcopy k hk,
    show p + k - d = p - d + k by omega]

/-- The tokens that `tokensFrom` finds for the rest of the data continue the data in front of it. -/
theorem tokensFrom_spec (data : Array UInt8) (h : History) (done : List Token) (p : Nat) :
    ∃ ts, tokensFrom data h done p = done.reverse ++ ts ∧ (∀ t ∈ ts, t.Expressible)
      ∧ (p ≤ data.size → Expands ts (data.extract 0 p) data) := by
  induction h, done, p using tokensFrom.induct data with
  | case1 h done p hp n d hc ih =>
      obtain ⟨ts, heq, hts, hdata⟩ := ih
      obtain ⟨he, -, hn, -⟩ := History.propose_eq_some hc
      refine ⟨.copy n d :: ts, ?_, List.forall_mem_cons.mpr ⟨he, hts⟩, fun hle => ?_⟩
      · rw [tokensFrom, dif_pos hp]
        split
        · next hc' =>
            cases hc.symm.trans hc'
            rw [heq, List.reverse_cons, List.append_assoc, List.singleton_append]
        · next hc' => cases hc.symm.trans hc'
      · exact expands_copy hc hle (hdata (by omega))
  | case2 h done p hp hc ih =>
      obtain ⟨ts, heq, hts, hdata⟩ := ih
      refine ⟨.literal data[p] :: ts, ?_, List.forall_mem_cons.mpr ⟨trivial, hts⟩, fun _ => ?_⟩
      · rw [tokensFrom, dif_pos hp]
        split
        · next hc' => cases hc.symm.trans hc'
        · rw [heq, List.reverse_cons, List.append_assoc, List.singleton_append]
      · exact .literal (push_extract hp ▸ hdata hp)
  | case3 h done p hp =>
      refine ⟨[], ?_, by simp, fun hle => ?_⟩
      · rw [tokensFrom, dif_neg hp, List.append_nil]
      · rw [show p = data.size by omega, Array.extract_size]
        exact .nil

/-- **The tokens of a byte string stand for it** (`Expands`). -/
theorem expands_tokens (data : Bytes) :
    Expands (tokens data) #[] data.toArray ∧ ∀ t ∈ tokens data, t.Expressible := by
  obtain ⟨ts, heq, hts, hdata⟩ := tokensFrom_spec data.toArray ∅ [] 0
  rw [tokens, heq, List.reverse_nil, List.nil_append]
  refine ⟨?_, hts⟩
  have hempty : data.toArray.extract 0 0 = #[] := Array.extract_zero
  exact hempty ▸ hdata (Nat.zero_le _)

end OpenDocument.Deflate
