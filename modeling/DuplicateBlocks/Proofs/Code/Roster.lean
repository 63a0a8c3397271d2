import DuplicateBlocks.Code.Canonical
import DuplicateBlocks.Proofs.FirstSeen
import Mathlib.Data.List.Perm.Subperm

namespace DuplicateBlocks.Code.Roster

variable {r : Roster} {ns names : List (List Char)} {n : List Char} {room : Nat}

-- A roster that has taken up the names `ns`, in this order.
structure Lists (r : Roster) (ns : List (List Char)) : Prop where
  number : ∀ n, r.number? n = ns.idxOf? n
  size   : r.numbers.size = ns.length

namespace Lists

theorem nil : Lists {} [] := by
  constructor <;> simp [number?]

theorem knows (h : r.Lists ns) : r.knows n = true ↔ n ∈ ns := by
  rw [Roster.knows, h.number, List.isSome_idxOf?]

theorem enroll (h : r.Lists ns) (room : Nat) (n : List Char) :
    (r.enroll room n).Lists (if n ∈ ns ∨ room ≤ ns.length then ns else ns ++ [n]) := by
  unfold Roster.enroll
  simp only [Bool.or_eq_true, h.knows, decide_eq_true_eq, h.size]
  split
  case isTrue => exact h
  case isFalse hn =>
    have hm : n ∉ ns := fun hm => hn (.inl hm)
    have hk : String.ofList n ∉ r.numbers := by
      rw [← Std.HashMap.isSome_getElem?_iff_mem]
      exact fun hk => hm (h.knows.mp hk)
    constructor
    case number =>
      intro k
      rw [number?, Std.HashMap.getElem?_insert, FirstSeen.idxOf?_concat, ← h.number, number?]
      by_cases he : n = k
      case pos => subst he; simp [hm]
      case neg =>
        have hs : (String.ofList n == String.ofList k) = false := by simpa [String.ofList_inj] using he
        have hn := h.number k
        rw [number?] at hn
        by_cases hk : k ∈ ns <;> simp_all
    case size =>
      rw [Std.HashMap.size_insert, if_neg hk, List.length_append, h.size]
      rfl

end Lists

theorem lists_ofNames (room : Nat) (names : List (List Char)) :
    (ofNames room names).Lists (names.eraseDups.take room) := by
  induction names using List.reverseRecOn
  case nil => simpa [ofNames] using Lists.nil
  case append_singleton names n hi =>
    have he := hi.enroll room n
    have ho : ofNames room (names ++ [n]) = (ofNames room names).enroll room n := List.foldl_append
    rw [ho, FirstSeen.eraseDups_concat]
    -- Once there is no room left, the first names stay the same.
    by_cases hr : room ≤ names.eraseDups.length
    case pos =>
      have hl : room ≤ (names.eraseDups.take room).length := by simp [hr]
      have ht : (if n ∈ names then names.eraseDups else names.eraseDups ++ [n]).take room =
          names.eraseDups.take room := by
        split <;> simp [List.take_append_of_le_length hr]
      rw [if_pos (.inr hl)] at he
      exact ht ▸ he
    case neg =>
      have ht : names.eraseDups.take room = names.eraseDups := List.take_of_length_le (by omega)
      rw [ht] at he
      by_cases hn : n ∈ names
      case pos => simpa [hn, ht] using he
      case neg =>
        have hl : (names.eraseDups ++ [n]).take room = names.eraseDups ++ [n] :=
          List.take_of_length_le (by simp; omega)
        simpa [hn, hr, hl] using he

theorem number?_ofNames (room : Nat) (names : List (List Char)) (n : List Char) :
    (ofNames room names).number? n = (names.eraseDups.take room).idxOf? n :=
  (lists_ofNames room names).number n

theorem forall_knows_iff :
    (∀ n ∈ names, (ofNames room names).knows n = true) ↔ names.eraseDups.length ≤ room := by
  simp only [(lists_ofNames room names).knows]
  constructor
  case mp =>
    intro h
    have hs : names.eraseDups ⊆ names.eraseDups.take room := fun n hn => h n (List.mem_eraseDups.mp hn)
    have hl := ((FirstSeen.nodup_eraseDups names).subperm hs).length_le
    exact Nat.le_trans hl (List.length_take_le ..)
  case mpr =>
    intro h n hn
    rw [List.take_of_length_le h]
    exact List.mem_eraseDups.mpr hn

theorem enroll_ofNames_of_mem (h : n ∈ names) : (ofNames room names).enroll room n = ofNames room names := by
  have hl := lists_ofNames room names
  rw [enroll, if_pos]
  rw [Bool.or_eq_true, decide_eq_true_eq, hl.size, hl.knows]
  by_cases hr : room ≤ names.eraseDups.length
  case pos => exact .inr (by simp [hr])
  case neg =>
    rw [List.take_of_length_le (by omega)]
    exact .inl (List.mem_eraseDups.mpr h)

theorem number?_enroll_of_ne {m : List Char} (h : m ≠ n) : (r.enroll room n).number? m = r.number? m := by
  unfold enroll
  split
  case isTrue  => rfl
  case isFalse =>
    have hs : String.ofList n ≠ String.ofList m := fun he => h (String.ofList_inj.mp he).symm
    simp [number?, Std.HashMap.getElem?_insert, hs]

theorem number?_of_knows (h : (ofNames room names).knows n) :
    (ofNames room names).number? n = names.eraseDups.idxOf? n := by
  rw [(lists_ofNames room names).knows] at h
  rw [number?_ofNames, FirstSeen.idxOf?_take h]

theorem number?_ofNames_map {f : List Char → List Char} (hf : Set.InjOn f {m | m ∈ names}) (hn : n ∈ names)
    (h : (ofNames room names).knows n) (h' : (ofNames room (names.map f)).knows (f n)) :
    (ofNames room (names.map f)).number? (f n) = (ofNames room names).number? n := by
  have hfd : Set.InjOn f {m | m ∈ names.eraseDups} := hf.mono fun _ => List.mem_eraseDups.mp
  rw [number?_of_knows h, number?_of_knows h', FirstSeen.eraseDups_map hf]
  exact FirstSeen.idxOf?_map hfd (List.mem_eraseDups.mpr hn)

end DuplicateBlocks.Code.Roster
