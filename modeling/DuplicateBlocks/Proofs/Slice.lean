import DuplicateBlocks.Proofs.Utf8
import DuplicateBlocks.Text.Slice

namespace DuplicateBlocks.Text.Utf8

variable {c : Char} {cs front middle back : List Char} {bytes xs ys out : List UInt8} {b : UInt8} {i j start stop : Nat}

theorem isContinuation_iff : isContinuation b = true ↔ 0x80 ≤ b.toNat ∧ b.toNat < 0xC0 := by
  simp [isContinuation, UInt8.le_iff_toNat_le, UInt8.lt_iff_toNat_lt]

-- A character begins with a byte that goes on with nothing, and all its other bytes go on with it.
theorem exists_utf8EncodeChar (c : Char) :
    ∃ b bs, String.utf8EncodeChar c = b :: bs ∧ isContinuation b = false ∧ ∀ d ∈ bs, isContinuation d = true := by
  simp only [← Bool.not_eq_true, isContinuation_iff]
  have h := spelled_utf8EncodeChar c
  generalize String.utf8EncodeChar c = bytes at h ⊢
  cases h
  case one   => exact ⟨_, _, rfl, by omega, by simp⟩
  case two   => exact ⟨_, _, rfl, by omega, by simp; omega⟩
  case three => exact ⟨_, _, rfl, by omega, by simp; omega⟩
  case four  => exact ⟨_, _, rfl, by omega, by simp; omega⟩

theorem isBoundary_length (bytes : List UInt8) : isBoundary bytes bytes.length = true := by
  simp [isBoundary]

theorem isBoundary_append (hj : j ≠ 0) : isBoundary (xs ++ ys) (xs.length + j) = isBoundary ys j := by
  have hij : (xs.length + j == 0) = (j == 0) := by rw [Bool.eq_iff_iff, beq_iff_eq, beq_iff_eq]; omega
  have hlen : (xs.length + j == (xs ++ ys).length) = (j == ys.length) := by
    rw [Bool.eq_iff_iff, beq_iff_eq, beq_iff_eq, List.length_append]
    omega
  have hget : (xs ++ ys)[xs.length + j]? = ys[j]? := by simp [List.getElem?_append_right]
  rw [isBoundary, hij, hlen, hget, isBoundary]

theorem isBoundary_encode_append (front back : List Char) :
    isBoundary (encode (front ++ back)) (encode front).length = true := by
  rw [encode_append]
  cases back
  case nil       => simpa [encode_nil] using isBoundary_length (encode front)
  case cons c cs =>
    have ⟨b, bs, hc, hb, _⟩ := exists_utf8EncodeChar c
    simp [isBoundary, encode_cons, hc, hb]

theorem isBoundary_encode_iff :
    isBoundary (encode cs) i = true ↔ ∃ front back, cs = front ++ back ∧ i = (encode front).length := by
  constructor
  case mpr =>
    rintro ⟨front, back, rfl, rfl⟩
    exact isBoundary_encode_append front back
  case mp =>
    intro h
    induction cs generalizing i
    case nil =>
      have hi : i = 0 := by simpa [isBoundary, encode_nil] using h
      exact ⟨[], [], rfl, hi⟩
    case cons c cs ih =>
      have ⟨b, bs, hc, _, hbs⟩ := exists_utf8EncodeChar c
      have he : encode (c :: cs) = (b :: bs) ++ encode cs := by rw [encode_cons, hc]
      cases i
      case zero => exact ⟨[], c :: cs, rfl, rfl⟩
      case succ i =>
        by_cases hl : i < bs.length
        case pos =>
          -- Inside the first character.
          have hg : bs[i]? = some bs[i] := List.getElem?_eq_getElem hl
          have hn : isContinuation bs[i] = true := hbs _ (List.getElem_mem hl)
          simp [isBoundary, he, List.getElem?_append_left hl, hg, hn] at h
        case neg =>
          have hi : i + 1 = (b :: bs).length + (i - bs.length) := by simp; omega
          have hb : isBoundary (encode cs) (i - bs.length) = true := by
            by_cases h0 : i - bs.length = 0
            case pos => rw [h0]; rfl
            case neg => rwa [he, hi, isBoundary_append h0] at h
          have ⟨front, back, hcs, hf⟩ := ih hb
          refine ⟨c :: front, back, by rw [hcs, List.cons_append], ?_⟩
          rw [hi, hf, encode_cons, hc, List.length_append]

theorem slice?_encode (front middle back : List Char) :
    slice? (encode (front ++ middle ++ back)) (encode front).length (encode (front ++ middle)).length =
      some (encode middle) := by
  have hstart : isBoundary (encode (front ++ middle ++ back)) (encode front).length = true := by
    rw [List.append_assoc]
    exact isBoundary_encode_append front (middle ++ back)
  have hstop := isBoundary_encode_append (front ++ middle) back
  have hle : (encode front).length ≤ (encode (front ++ middle)).length := by simp [encode_append]
  rw [slice?, hstart, hstop, if_pos (by simp [hle]), encode_append (front ++ middle), List.take_left, encode_append,
    List.drop_left]

-- Only whole characters can be cut out.
theorem slice?_encode_eq_some_iff :
    slice? (encode cs) start stop = some out ↔
      ∃ front middle back, cs = front ++ middle ++ back ∧ start = (encode front).length ∧
        stop = (encode (front ++ middle)).length ∧ out = encode middle := by
  constructor
  case mpr =>
    rintro ⟨front, middle, back, rfl, rfl, rfl, rfl⟩
    exact slice?_encode front middle back
  case mp =>
    intro h
    have ⟨⟨hle, hstart⟩, hstop⟩ : (start ≤ stop ∧ isBoundary (encode cs) start = true) ∧
        isBoundary (encode cs) stop = true := by
      unfold slice? at h
      split at h
      case isTrue hc => simpa using hc
      case isFalse   => cases h
    have ⟨front, rest, hf, hi⟩ := isBoundary_encode_iff.mp hstart
    have ⟨upto, back, hu, hj⟩ := isBoundary_encode_iff.mp hstop
    have hp : front <+: upto := by
      have hfront : front <+: cs := ⟨rest, hf.symm⟩
      have hupto : upto <+: cs := ⟨back, hu.symm⟩
      rcases List.prefix_or_prefix_of_prefix hfront hupto with hp | ⟨more, rfl⟩
      case inl => exact hp
      case inr =>
        -- Nothing that takes a byte can stand between the two.
        rw [hi, hj, encode_append, List.length_append] at hle
        have hm : encode more = encode [] := List.eq_nil_of_length_eq_zero (by omega)
        simp [(encode_injective hm : more = [])]
    obtain ⟨middle, rfl⟩ := hp
    refine ⟨front, middle, back, hu, hi, hj, ?_⟩
    rw [hu, hi, hj, slice?_encode] at h
    exact (Option.some.inj h).symm

example : slice? (encode ['a', 'é']) 1 3 = some (encode ['é']) ∧ slice? (encode ['a', 'é']) 0 2 = none := by decide

end DuplicateBlocks.Text.Utf8
