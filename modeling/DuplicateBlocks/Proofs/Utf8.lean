import DuplicateBlocks.Text.Utf8
import Mathlib.Logic.Function.Defs

namespace DuplicateBlocks.Text.Utf8

variable {c d : Char} {cs : List Char} {found : List (Option Char)}

theorem encode_injective : Function.Injective encode := by
  intro cs ds h
  have hb : (String.ofList cs).toByteArray = (String.ofList ds).toByteArray := by
    rw [String.toByteArray_ofList, String.toByteArray_ofList]
    exact congrArg List.toByteArray h
  exact String.ofList_inj.mp (String.toByteArray_inj.mp hb)

theorem encode_nil : encode [] = [] := rfl

theorem encode_cons (c : Char) (cs : List Char) : encode (c :: cs) = String.utf8EncodeChar c ++ encode cs :=
  List.flatMap_cons

theorem encode_append (cs ds : List Char) : encode (cs ++ ds) = encode cs ++ encode ds :=
  List.flatMap_append

-- How a character is written, by the number of its bytes.
inductive Spelled (c : Char) : List UInt8 → Prop
  | one {a : UInt8} : a.toNat = c.toNat → c.toNat < 0x80 → Spelled c [a]
  | two {a b : UInt8} : a.toNat = 0xC0 + c.toNat / 64 → b.toNat = 0x80 + c.toNat % 64 →
      0x80 ≤ c.toNat → c.toNat < 0x800 → Spelled c [a, b]
  | three {a b d : UInt8} : a.toNat = 0xE0 + c.toNat / 4096 → b.toNat = 0x80 + c.toNat / 64 % 64 →
      d.toNat = 0x80 + c.toNat % 64 → 0x800 ≤ c.toNat → c.toNat < 0x10000 → Spelled c [a, b, d]
  | four {a b d e : UInt8} : a.toNat = 0xF0 + c.toNat / 262144 → b.toNat = 0x80 + c.toNat / 4096 % 64 →
      d.toNat = 0x80 + c.toNat / 64 % 64 → e.toNat = 0x80 + c.toNat % 64 → 0x10000 ≤ c.toNat → Spelled c [a, b, d, e]

theorem toNat_valid (c : Char) : c.toNat < 0xD800 ∨ 0xDFFF < c.toNat ∧ c.toNat < 0x110000 :=
  c.valid

theorem toNat_ofNat_of_eq {m n : Nat} (h : m = n) (hn : n < 256) : (UInt8.ofNat m).toNat = n := by
  rw [h, UInt8.toNat_ofNat', Nat.mod_eq_of_lt hn]

theorem spelled_utf8EncodeChar (c : Char) : Spelled c (String.utf8EncodeChar c) := by
  have hv := toNat_valid c
  have he : c.val.toNat = c.toNat := rfl
  unfold String.utf8EncodeChar
  simp only [he]
  split <;> try split <;> try split
  case isTrue =>
    exact .one (toNat_ofNat_of_eq rfl (by omega)) (by omega)
  case isFalse.isTrue =>
    exact .two (toNat_ofNat_of_eq (by omega) (by omega)) (toNat_ofNat_of_eq (by omega) (by omega)) (by omega) (by omega)
  case isFalse.isFalse.isTrue =>
    exact .three (toNat_ofNat_of_eq (by omega) (by omega)) (toNat_ofNat_of_eq (by omega) (by omega))
      (toNat_ofNat_of_eq (by omega) (by omega)) (by omega) (by omega)
  case isFalse.isFalse.isFalse =>
    exact .four (toNat_ofNat_of_eq (by omega) (by omega)) (toNat_ofNat_of_eq (by omega) (by omega))
      (toNat_ofNat_of_eq (by omega) (by omega)) (toNat_ofNat_of_eq (by omega) (by omega)) (by omega)

theorem utf8EncodeChar_of_le (h : c.toNat ≤ 127) : String.utf8EncodeChar c = [UInt8.ofNat c.toNat] :=
  if_pos h

theorem le_of_mem_utf8EncodeChar (h : 127 < c.toNat) : ∀ b ∈ String.utf8EncodeChar c, 128 ≤ b.toNat := by
  have hs := spelled_utf8EncodeChar c
  generalize String.utf8EncodeChar c = bytes at hs ⊢
  cases hs <;> simp only [List.forall_mem_cons, List.not_mem_nil, false_imp_iff, implies_true, and_true] <;> omega

theorem ofNat_mem_utf8EncodeChar_iff (hc : c.toNat ≤ 127) :
    UInt8.ofNat c.toNat ∈ String.utf8EncodeChar d ↔ c = d := by
  constructor
  case mpr =>
    rintro rfl
    rw [utf8EncodeChar_of_le hc]
    exact List.mem_singleton_self _
  case mp =>
    intro h
    have hn : (UInt8.ofNat c.toNat).toNat = c.toNat := by rw [UInt8.toNat_ofNat']; omega
    by_cases hd : d.toNat ≤ 127
    case pos =>
      rw [utf8EncodeChar_of_le hd, List.mem_singleton] at h
      have he := congrArg UInt8.toNat h
      rw [hn, UInt8.toNat_ofNat', Nat.mod_eq_of_lt (by omega)] at he
      exact Char.toNat_inj.mp he
    case neg =>
      have hl := le_of_mem_utf8EncodeChar (Nat.not_le.mp hd) _ h
      omega

theorem ofNat_mem_encode_iff (hc : c.toNat ≤ 127) : UInt8.ofNat c.toNat ∈ encode cs ↔ c ∈ cs := by
  simp [encode, List.mem_flatMap, ofNat_mem_utf8EncodeChar_iff hc]

theorem lead?_of_lt {b : Nat} (h : b < 0x80) : lead? b = none := by
  simp only [lead?]
  repeat rw [if_neg (by omega)]

theorem lead?_two {b : Nat} (h : 0xC2 ≤ b ∧ b ≤ 0xDF) : lead? b = some (.within 1 (b - 0xC0) 0x80 0xBF) :=
  if_pos h

theorem lead?_three {b : Nat} (h : 0xE0 ≤ b ∧ b ≤ 0xEF) :
    lead? b = some (.within 2 (b - 0xE0) (if b = 0xE0 then 0xA0 else 0x80) (if b = 0xED then 0x9F else 0xBF)) := by
  rw [lead?, if_neg (by omega)]
  by_cases h0 : b = 0xE0
  case pos => simp [h0]
  case neg =>
    by_cases hd : b = 0xED
    case pos => simp [hd]
    case neg => rw [if_neg h0, if_neg hd, if_pos (by omega), if_neg h0, if_neg hd]

theorem lead?_four {b : Nat} (h : 0xF0 ≤ b ∧ b ≤ 0xF4) :
    lead? b = some (.within 3 (b - 0xF0) (if b = 0xF0 then 0x90 else 0x80) (if b = 0xF4 then 0x8F else 0xBF)) := by
  rw [lead?, if_neg (by omega), if_neg (by omega), if_neg (by omega), if_neg (by omega)]
  by_cases h0 : b = 0xF0
  case pos => simp [h0]
  case neg =>
    by_cases h4 : b = 0xF4
    case pos => simp [h4]
    case neg => rw [if_neg h0, if_pos (by omega), if_neg h0, if_neg h4]

theorem step_lead {b : UInt8} {s : State} (found : List (Option Char)) (h : lead? b.toNat = some s) :
    Reading.step ⟨.start, found⟩ b = ⟨s, found⟩ := by
  have hb : ¬b.toNat < 0x80 := by
    intro hb
    rw [lead?_of_lt hb] at h
    cases h
  simp only [Reading.step, Reading.begin, if_neg hb, h]

theorem step_within {owed value low high : Nat} {b : UInt8} (h : low ≤ b.toNat ∧ b.toNat ≤ high) (ho : 1 < owed) :
    Reading.step ⟨.within owed value low high, found⟩ b =
      ⟨.within (owed - 1) (value * 64 + (b.toNat - 0x80)) 0x80 0xBF, found⟩ := by
  simp only [Reading.step, if_pos h, if_neg (Nat.not_le.mpr ho)]

theorem step_last {value low high : Nat} {b : UInt8} (h : low ≤ b.toNat ∧ b.toNat ≤ high)
    (hc : value * 64 + (b.toNat - 0x80) = c.toNat) :
    Reading.step ⟨.within 1 value low high, found⟩ b = ⟨.start, some c :: found⟩ := by
  simp only [Reading.step, if_pos h, Nat.le_refl, if_true, hc, Char.ofNat_toNat]

theorem foldl_step_utf8EncodeChar (c : Char) (found : List (Option Char)) :
    (String.utf8EncodeChar c).foldl Reading.step ⟨.start, found⟩ = ⟨.start, some c :: found⟩ := by
  -- No character is a surrogate or lies beyond the last one, which keeps the second byte in its range.
  have hv := toNat_valid c
  have h := spelled_utf8EncodeChar c
  generalize String.utf8EncodeChar c = bytes at h ⊢
  cases h
  case one a ha hl =>
    simp only [List.foldl_cons, List.foldl_nil, Reading.step, Reading.begin, ha, if_pos hl, Char.ofNat_toNat]
  case two a b ha hb hl hu =>
    have h1 := step_lead found (lead?_two (b := a.toNat) (by omega))
    rw [List.foldl_cons, h1]
    exact step_last (by omega) (by omega)
  case three a b d ha hb hd hl hu =>
    have h1 := step_lead found (lead?_three (b := a.toNat) (by omega))
    rw [List.foldl_cons, h1, List.foldl_cons, step_within (by split <;> split <;> omega) (by omega)]
    exact step_last (by omega) (by omega)
  case four a b d e ha hb hd he hl =>
    have h1 := step_lead found (lead?_four (b := a.toNat) (by omega))
    rw [List.foldl_cons, h1, List.foldl_cons, step_within (by split <;> split <;> omega) (by omega),
      List.foldl_cons, step_within (by omega) (by omega)]
    exact step_last (by omega) (by omega)

theorem foldl_step_encode (cs : List Char) (found : List (Option Char)) :
    (encode cs).foldl Reading.step ⟨.start, found⟩ = ⟨.start, (cs.map some).reverse ++ found⟩ := by
  induction cs generalizing found
  case nil => rfl
  case cons c cs hi =>
    rw [encode_cons, List.foldl_append, foldl_step_utf8EncodeChar, hi]
    simp

theorem scan_encode (cs : List Char) : scan (encode cs) = cs.map some := by
  rw [scan, foldl_step_encode]
  simp [Reading.finish]

theorem decode?_encode (cs : List Char) : decode? (encode cs) = some cs := by
  simp [decode?, scan_encode]

end DuplicateBlocks.Text.Utf8
