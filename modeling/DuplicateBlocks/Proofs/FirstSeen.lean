import Mathlib.Data.Finset.Card
import Mathlib.Data.List.Induction

namespace DuplicateBlocks.FirstSeen

variable {α β : Type} [BEq α]

theorem idxOf?_take_eq_filter (xs : List α) (x : α) (n : Nat) :
    (xs.take n).idxOf? x = (xs.idxOf? x).filter (· < n) := by
  induction xs generalizing n
  case nil => simp
  case cons y ys hi =>
    cases n
    case zero   => simp
    case succ n =>
      rw [List.take_succ_cons, List.idxOf?_cons, List.idxOf?_cons, hi]
      split
      case isTrue  => rfl
      case isFalse => cases ys.idxOf? x <;> simp [Option.filter]

variable [LawfulBEq α]

theorem eraseDups_concat (xs : List α) (x : α) :
    (xs ++ [x]).eraseDups = if x ∈ xs then xs.eraseDups else xs.eraseDups ++ [x] := by
  rw [List.eraseDups_append]
  by_cases h : x ∈ xs <;> simp [List.removeAll, h, List.eraseDups_cons]

theorem nodup_eraseDups (xs : List α) : xs.eraseDups.Nodup := by
  induction xs using List.reverseRecOn
  case nil => simp
  case append_singleton xs x hi =>
    rw [eraseDups_concat]
    split
    case isTrue    => exact hi
    case isFalse h => exact List.nodup_append.mpr ⟨hi, by simp, by simp; exact fun a ha e => h (e ▸ ha)⟩

theorem pairwise_idxOf_eraseDups (xs : List α) : xs.eraseDups.Pairwise fun x y => xs.idxOf x < xs.idxOf y := by
  induction xs using List.reverseRecOn
  case nil => simp
  case append_singleton xs x hi =>
    have hold : xs.eraseDups.Pairwise fun y z => (xs ++ [x]).idxOf y < (xs ++ [x]).idxOf z := by
      refine hi.imp_of_mem fun {y z} hy hz hlt => ?_
      rwa [List.idxOf_append_of_mem (List.mem_eraseDups.mp hy), List.idxOf_append_of_mem (List.mem_eraseDups.mp hz)]
    rw [eraseDups_concat]
    split
    case isTrue    => exact hold
    case isFalse h =>
      refine List.pairwise_append.mpr ⟨hold, List.pairwise_singleton .., fun y hy z hz => ?_⟩
      have hy := List.mem_eraseDups.mp hy
      rw [List.mem_singleton.mp hz, List.idxOf_append_of_mem hy, List.idxOf_append_of_notMem h]
      exact Nat.lt_add_right _ (List.idxOf_lt_length_iff.mpr hy)

theorem eraseDups_of_nodup {xs : List α} (h : xs.Nodup) : xs.eraseDups = xs := by
  induction xs using List.reverseRecOn
  case nil => rfl
  case append_singleton xs x hi =>
    have ⟨hn, _, hd⟩ := List.nodup_append.mp h
    rw [eraseDups_concat, if_neg fun hx => hd x hx x List.mem_cons_self rfl, hi hn]

theorem eraseDups_filter (p : α → Bool) (xs : List α) : (xs.filter p).eraseDups = xs.eraseDups.filter p := by
  induction xs using List.reverseRecOn
  case nil => rfl
  case append_singleton xs x hi =>
    rw [List.filter_append, eraseDups_concat]
    cases hp : p x
    case false => by_cases hx : x ∈ xs <;> simp [hp, hx, hi]
    case true =>
      rw [List.filter_singleton, hp, Bool.cond_true, eraseDups_concat, hi]
      by_cases hx : x ∈ xs <;> simp [hp, hx]

theorem eraseDups_map_eraseDups [BEq β] [LawfulBEq β] (f : α → β) (xs : List α) :
    (xs.eraseDups.map f).eraseDups = (xs.map f).eraseDups := by
  induction xs using List.reverseRecOn
  case nil => rfl
  case append_singleton xs x hi =>
    have hm : f x ∈ xs.eraseDups.map f ↔ f x ∈ xs.map f := by simp
    rw [eraseDups_concat, List.map_append, List.map_singleton, eraseDups_concat, ← hi]
    by_cases hx : x ∈ xs
    case pos => simp only [hx, List.mem_map_of_mem hx, if_true]
    case neg => simp only [hx, if_false, List.map_append, List.map_singleton, eraseDups_concat, hm]

theorem length_eraseDups [DecidableEq α] (xs : List α) : xs.eraseDups.length = xs.toFinset.card := by
  have he : xs.toFinset = xs.eraseDups.toFinset := by
    ext x
    simp
  rw [he, List.toFinset_card_of_nodup (nodup_eraseDups xs)]

theorem idxOf?_concat (xs : List α) (x y : α) :
    (xs ++ [x]).idxOf? y = if y ∈ xs then xs.idxOf? y else if x == y then some xs.length else none := by
  by_cases h : y ∈ xs
  case pos =>
    have ⟨i, hi⟩ := Option.isSome_iff_exists.mp (List.isSome_idxOf?.mpr h)
    simp_all [List.idxOf?, List.findIdx?_append]
  case neg =>
    have hi : xs.findIdx? (· == y) = none := List.idxOf?_eq_none_iff.mpr h
    simp [List.idxOf?, List.findIdx?_append, h, hi]

theorem eraseDups_map [BEq β] [LawfulBEq β] {f : α → β} {xs : List α} (hf : Set.InjOn f {x | x ∈ xs}) :
    (xs.map f).eraseDups = xs.eraseDups.map f := by
  induction xs using List.reverseRecOn
  case nil => rfl
  case append_singleton xs x hi =>
    have hm : f x ∈ xs.map f ↔ x ∈ xs := by
      refine ⟨fun h => ?_, List.mem_map_of_mem⟩
      have ⟨y, hy, he⟩ := List.mem_map.mp h
      have hyx : y = x := hf (List.mem_append_left _ hy) (by simp) he
      exact hyx ▸ hy
    have hi := hi (hf.mono fun _ => List.mem_append_left _)
    rw [List.map_append, List.map_singleton, eraseDups_concat, eraseDups_concat, hi]
    by_cases hx : x ∈ xs <;> simp [hm, hx]

theorem idxOf?_map [BEq β] [LawfulBEq β] {f : α → β} {xs : List α} {x : α} (hf : Set.InjOn f {x | x ∈ xs})
    (hx : x ∈ xs) : (xs.map f).idxOf? (f x) = xs.idxOf? x := by
  induction xs
  case nil => cases hx
  case cons y ys hi =>
    rw [List.map_cons, List.idxOf?_cons, List.idxOf?_cons]
    by_cases he : y = x
    case pos => simp [he]
    case neg =>
      have hn : f y ≠ f x := fun hn => he (hf List.mem_cons_self hx hn)
      have hx := List.mem_of_ne_of_mem (Ne.symm he) hx
      have hi := hi (hf.mono fun _ => List.mem_cons_of_mem y) hx
      simp [he, hn, hi]

theorem eq_of_idxOf?_eq {xs : List α} {x y : α} (hx : x ∈ xs) (h : xs.idxOf? x = xs.idxOf? y) : x = y := by
  have ⟨i, hi⟩ := Option.isSome_iff_exists.mp (List.isSome_idxOf?.mpr hx)
  have ⟨_, he, _⟩ := List.findIdx?_eq_some_iff_getElem.mp hi
  have ⟨_, he', _⟩ := List.findIdx?_eq_some_iff_getElem.mp (h ▸ hi)
  exact (eq_of_beq he).symm.trans (eq_of_beq he')

theorem idxOf?_take {xs : List α} {x : α} {n : Nat} (h : x ∈ xs.take n) : (xs.take n).idxOf? x = xs.idxOf? x := by
  have ⟨i, hi⟩ := Option.isSome_iff_exists.mp (List.isSome_idxOf?.mpr h)
  rw [hi]
  rw [idxOf?_take_eq_filter] at hi
  exact (Option.eq_some_of_filter_eq_some hi).symm

-- Changing the entry of one element in a list that has an entry for each.
theorem modify_map_idxOf? {xs : List α} (hn : xs.Nodup) {x : α} {i : Nat} (h : xs.idxOf? x = some i)
    (f : α → β) (change : β → β) :
    (xs.map f).modify i change = xs.map fun y => if y == x then change (f y) else f y := by
  induction xs generalizing i
  case nil => simp at h
  case cons y ys hi =>
    have ⟨hy, hn⟩ := List.nodup_cons.mp hn
    rw [List.idxOf?_cons] at h
    by_cases he : y == x
    case pos =>
      have hx : ∀ z ∈ ys, (z == x) = false := by
        intro z hz
        exact beq_false_of_ne fun hzx => hy ((eq_of_beq he).trans hzx.symm ▸ hz)
      have h0 : i = 0 := by simpa [he] using h.symm
      subst h0
      simp only [List.map_cons, List.modify_zero_cons, he, if_pos]
      congr 1
      exact List.map_congr_left fun z hz => by simp [hx z hz]
    case neg =>
      have h : (ys.idxOf? x).map (· + 1) = some i := by simpa [he] using h
      have ⟨j, hj, hij⟩ := Option.map_eq_some_iff.mp h
      subst hij
      simp [List.modify_succ_cons, he, hi hn hj]

end DuplicateBlocks.FirstSeen
