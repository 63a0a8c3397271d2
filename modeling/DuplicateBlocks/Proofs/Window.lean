import DuplicateBlocks.Proofs.Code.Substance
import DuplicateBlocks.Window

namespace DuplicateBlocks

open Text Code

namespace Window

theorem isSubstantive_eq (line : List Char) :
    isSubstantive line =
      !((Text.trimStart line).isEmpty || (Text.trimStart line).head?.any (· == '*') ||
        Renamed.opens (Text.trimStart line)) := by
  unfold isSubstantive
  cases Text.trimStart line
  case nil => rfl
  case cons c cs =>
    rw [Renamed.opens_cons]
    split
    case h_1 h => cases h
    case h_2 h => cases h; rfl
    case h_3 h => cases h; simp [opensComment]
    case h_4 h => cases h; simp [opensComment]
    case h_5 hs hl hb =>
      have hc : (c == '*') = false := beq_false_of_ne fun he => hs cs (he ▸ rfl)
      have ho : (cs.head?.any fun d => opensComment (c, d)) = false := by
        cases cs
        case nil => rfl
        case cons d ds hl hb =>
          simp only [List.head?_cons, Option.any_some]
          unfold opensComment
          split
          case h_1 h => cases h; exact absurd rfl (hl _)
          case h_2 h => cases h; exact absurd rfl (hb _)
          case h_3   => rfl
      simp [hc, ho]

theorem codeWords_ne_nil {line : List Char} (h : isSubstantive line = true) : codeWords line ≠ [] := by
  simp only [isSubstantive_eq, Bool.not_eq_true', Bool.or_eq_false_iff, List.isEmpty_eq_false_iff] at h
  exact Code.codeWords_ne_nil h.left.left h.right

theorem isDense_of_forall {w : Nat} {win : Window} (hl : win.lines.length = w)
    (h : ∀ l ∈ win.lines, isSubstantive l = true) : win.isDense w = true := by
  rw [isDense, List.countP_eq_length.mpr h, hl, decide_eq_true_eq]
  omega

def count (w n : Nat) : Nat :=
  if n < w then 0 else (n - w) / stride w + 1

theorem lt_count_iff {w n k : Nat} : k < count w n ↔ k * stride w + w ≤ n := by
  unfold count
  split
  case isTrue  => omega
  case isFalse => rw [Nat.lt_succ_iff, Nat.le_div_iff_mul_le (stride_pos w)]; omega

def after (w : Nat) (lines : Array (List Char)) (k : Nat) : Window where
  offset := k * stride w
  lines  := (lines.extract (k * stride w) (k * stride w + w)).toList

theorem lines_after (w : Nat) (lines : List (List Char)) (k : Nat) :
    (after w lines.toArray k).lines = (lines.drop (k * stride w)).take w := by
  simp [after, List.extract_eq_take_drop]

-- Sliding on from the `k`-th window collects this window and all after it.
theorem slide_eq {w pos k : Nat} {lines : Array (List Char)} {found : List Window} (hp : pos = k * stride w) :
    slide w lines pos found =
      ((List.range' k (count w lines.size - k)).map (after w lines)).reverse ++ found := by
  fun_induction slide w lines pos found generalizing k
  case case1 pos found hl hi =>
    subst hp
    have hk : k < count w lines.size := lt_count_iff.mpr hl
    have hc : count w lines.size - k = count w lines.size - (k + 1) + 1 := by omega
    rw [hi (Nat.succ_mul k (stride w)).symm, hc, List.range'_succ]
    simp [after]
  case case2 pos found hl =>
    have hk : count w lines.size - k = 0 := by
      have := mt lt_count_iff.mp (hp ▸ hl)
      omega
    simp [hk]

-- The loop finds as many windows as fit, each of them one stride after the one before it.
theorem all_eq (w : Nat) (lines : Array (List Char)) :
    all w lines = (List.range (count w lines.size)).map (after w lines) := by
  rw [all, slide_eq (Nat.zero_mul (stride w)).symm, List.range_eq_range']
  simp

theorem length_all (w : Nat) (lines : Array (List Char)) : (all w lines).length = count w lines.size := by
  simp [all_eq]

theorem mem_all {w o : Nat} {lines : List (List Char)} (hd : stride w ∣ o) (hl : o + w ≤ lines.length) :
    ⟨o, (lines.drop o).take w⟩ ∈ all w lines.toArray := by
  have ⟨k, hk⟩ := hd
  rw [Nat.mul_comm] at hk
  subst hk
  rw [all_eq, ← lines_after]
  exact List.mem_map_of_mem (f := after w lines.toArray) (List.mem_range.mpr (lt_count_iff.mpr hl))

theorem stride_le {w : Nat} (hw : 0 < w) : stride w ≤ w := by
  simp only [stride]
  omega

-- Windows overlap or touch, so they leave no gap up to the end of the one that `m` strides lead to.
theorem exists_le_covering {w m i : Nat} (hw : 0 < w) (hi : i < m * stride w + w) :
    ∃ k ≤ m, k * stride w ≤ i ∧ i < k * stride w + w := by
  have hs := stride_le hw
  have hd := Nat.div_add_mod' i (stride w)
  have hr := Nat.mod_lt i (stride_pos w)
  by_cases hk : i / stride w ≤ m
  case pos => exact ⟨i / stride w, hk, by omega, by omega⟩
  case neg =>
    have hl : m * stride w ≤ i / stride w * stride w := Nat.mul_le_mul_right _ (by omega)
    exact ⟨m, Nat.le_refl m, by omega, hi⟩

theorem exists_count_eq_succ {w n : Nat} (hn : w ≤ n) :
    ∃ m, count w n = m + 1 ∧ m * stride w + w ≤ n ∧ n < m * stride w + w + stride w := by
  have hc : count w n = (n - w) / stride w + 1 := if_neg (Nat.not_lt.mpr hn)
  have hl : (n - w) / stride w * stride w + w ≤ n := lt_count_iff.mp (by omega)
  have hr : ¬((n - w) / stride w + 1) * stride w + w ≤ n := mt lt_count_iff.mpr (by omega)
  rw [Nat.succ_mul] at hr
  exact ⟨_, hc, hl, by omega⟩

theorem exists_tail {w : Nat} {lines : Array (List Char)} (hw : 0 < w) (hn : w ≤ lines.size) :
    ∃ tail < stride w, ∀ i, i + tail < lines.size → ∃ win ∈ all w lines, win.offset ≤ i ∧ i < win.offset + w := by
  have ⟨m, hc, hl, hr⟩ := exists_count_eq_succ hn
  refine ⟨lines.size - (m * stride w + w), by omega, fun i hi => ?_⟩
  have ⟨k, hk, hlo, hhi⟩ := exists_le_covering hw (show i < m * stride w + w by omega)
  refine ⟨after w lines k, ?_, hlo, hhi⟩
  exact all_eq w lines ▸ List.mem_map_of_mem (List.mem_range.mpr (by omega))

-- Sliding stops one stride behind the last window, or at the start if there is none.
theorem add_le_of_le_count {w n k : Nat} (hw : 0 < w) (hk : k ≤ count w n) : k * stride w + w ≤ max w (2 * n) := by
  by_cases hn : w ≤ n
  case pos =>
    have ⟨m, hc, hl, _⟩ := exists_count_eq_succ hn
    have hs := stride_le hw
    have hm : k * stride w ≤ (m + 1) * stride w := Nat.mul_le_mul_right _ (by omega)
    rw [Nat.succ_mul] at hm
    omega
  case neg =>
    have hc : count w n = 0 := if_pos (Nat.lt_of_not_le hn)
    have hz : k = 0 := by omega
    simp [hz]

end Window

theorem Text.newline_not_mem_of_mem_sourceLines {text line : List Char} (h : line ∈ sourceLines text) :
    newline ∉ line := by
  have ⟨piece, hp, he⟩ := List.mem_map.mp h
  have hm : piece ∈ pieces (· == newline) text := by
    simp only [feedPieces] at hp
    split at hp
    · exact List.dropLast_subset _ hp
    · exact hp
  subst he
  intro hn
  have ⟨ds, hd⟩ := Renamed.dropReturn_append piece
  exact not_sep_of_mem_pieces hm (hd ▸ List.mem_append_left ds hn) BEq.rfl

end DuplicateBlocks
