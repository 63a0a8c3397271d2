import DuplicateBlocks.Proofs.Similarity
import DuplicateBlocks.Scan
import Mathlib.Data.Fintype.Fin
import Mathlib.InformationTheory.Hamming

namespace DuplicateBlocks

open Text

namespace Similarity

-- A text at the positions `0` to `n - 1`: its lines, and nothing after the last one.
def placedLines (n : Nat) (lines : List (List Char)) (i : Fin n) : Option (List Char) :=
  lines[i.val]?

theorem eq_of_placedLines_eq {n : Nat} {xs ys : List (List Char)} (hx : xs.length ≤ n) (hy : ys.length ≤ n)
    (h : placedLines n xs = placedLines n ys) : xs = ys := by
  refine List.ext_getElem? fun i => ?_
  by_cases hi : i < n
  case pos => exact congrFun h ⟨i, hi⟩
  case neg => rw [List.getElem?_eq_none (by omega), List.getElem?_eq_none (by omega)]

theorem hammingDist_placedLines_succ (n : Nat) (xs ys : List (List Char)) :
    hammingDist (placedLines (n + 1) xs) (placedLines (n + 1) ys) =
      (if xs.head? = ys.head? then 0 else 1) + hammingDist (placedLines n xs.tail) (placedLines n ys.tail) := by
  have ht (zs : List (List Char)) : placedLines n zs.tail = placedLines (n + 1) zs ∘ Fin.succ := by
    funext i
    simp [placedLines]
  rw [hammingDist, Fin.card_filter_univ_succ', ht, ht, hammingDist]
  congr 1
  by_cases h : xs[0]? = ys[0]? <;> simp [placedLines, List.head?_eq_getElem?, h]

-- Every position up to the end of the longer list is one at which the lists match or one at which they differ.
theorem countP_zip_add_hammingDist {n : Nat} {xs ys : List (List Char)} (hx : xs.length ≤ n) (hy : ys.length ≤ n) :
    (xs.zip ys).countP (fun (x, y) => x == y) + hammingDist (placedLines n xs) (placedLines n ys) =
      max xs.length ys.length := by
  induction n generalizing xs ys
  case zero =>
    have hx := List.eq_nil_of_length_eq_zero (Nat.le_zero.mp hx)
    have hy := List.eq_nil_of_length_eq_zero (Nat.le_zero.mp hy)
    simp [hx, hy]
  case succ n hi =>
    have hx : xs.tail.length ≤ n := List.length_tail ▸ Nat.sub_le_of_le_add hx
    have hy : ys.tail.length ≤ n := List.length_tail ▸ Nat.sub_le_of_le_add hy
    have hi := hi hx hy
    rw [hammingDist_placedLines_succ]
    cases xs <;> cases ys <;> simp only [List.head?_nil, List.head?_cons, List.tail_nil, List.tail_cons,
      List.length_nil, List.length_cons, List.zip_nil_left, List.zip_nil_right, List.zip_cons_cons, List.countP_nil, List.countP_cons,
      reduceCtorEq, if_true, if_false, Option.some_inj, beq_iff_eq] at hi ⊢
    case cons.cons x xs y ys => split <;> omega
    all_goals omega

theorem unlines_comparedLines (a : List Char) : unlines (comparedLines a) = a := by
  unfold comparedLines unlines
  split
  case isTrue h  => simp [List.isEmpty_iff.mp h]
  case isFalse h => exact intercalate_pieces newline a

-- The positions of the longer text at which the texts do not match.
def difference (a b : List Char) : Nat :=
  longest a b - matching a b

variable {a b : List Char} {n : Nat}

theorem matching_add_hammingDist (ha : (comparedLines a).length ≤ n) (hb : (comparedLines b).length ≤ n) :
    matching a b + hammingDist (placedLines n (comparedLines a)) (placedLines n (comparedLines b)) = longest a b :=
  countP_zip_add_hammingDist ha hb

theorem matching_le_longest (a b : List Char) : matching a b ≤ longest a b := by
  have h := matching_add_hammingDist (Nat.le_max_left (comparedLines a).length (comparedLines b).length)
    (Nat.le_max_right ..)
  omega

theorem difference_eq_hammingDist (ha : (comparedLines a).length ≤ n) (hb : (comparedLines b).length ≤ n) :
    difference a b = hammingDist (placedLines n (comparedLines a)) (placedLines n (comparedLines b)) := by
  have h := matching_add_hammingDist ha hb
  rw [difference]
  omega

theorem difference_comm (a b : List Char) : difference a b = difference b a := by
  rw [difference, difference, longest_comm, matching_comm]

theorem difference_eq_zero_iff : difference a b = 0 ↔ a = b := by
  have ha : (comparedLines a).length ≤ longest a b := Nat.le_max_left ..
  have hb : (comparedLines b).length ≤ longest a b := Nat.le_max_right ..
  rw [difference_eq_hammingDist ha hb, hammingDist_eq_zero]
  constructor <;> intro h
  case mp =>
    have hl : comparedLines a = comparedLines b := eq_of_placedLines_eq ha hb h
    rw [← unlines_comparedLines a, hl, unlines_comparedLines]
  case mpr => rw [h]

-- Positions up to the end of the longest of the three texts are enough to compare any two of them.
theorem difference_triangle (a b c : List Char) : difference a c ≤ difference a b + difference b c := by
  have ha : (comparedLines a).length ≤ max (longest a b) (longest b c) := by simp [longest]
  have hb : (comparedLines b).length ≤ max (longest a b) (longest b c) := by simp [longest]
  have hc : (comparedLines c).length ≤ max (longest a b) (longest b c) := by simp [longest]
  rw [difference_eq_hammingDist ha hc, difference_eq_hammingDist ha hb, difference_eq_hammingDist hb hc]
  exact hammingDist_triangle ..

structure IsMetric {α : Type} (d : α → α → Nat) : Prop where
  comm        : ∀ a b, d a b = d b a
  eq_zero_iff : ∀ a b, d a b = 0 ↔ a = b
  triangle    : ∀ a b c, d a c ≤ d a b + d b c

end Similarity

namespace Bucket

open Similarity

-- The difference is a metric on texts; what it is taken from is never less than what is taken away. The members of a
-- group were compared with the root only, but two of them that are close to the root are close to each other.
theorem isMetric_difference_and_members :
    IsMetric difference ∧ (∀ a b, matching a b ≤ longest a b) ∧
      ∀ (r : Grouping Block) (bs : List Bucket) (c : Counters), ∀ g ∈ (groups r bs c).1,
        ∀ x ∈ g.members, ∀ y ∈ g.members,
          difference x.normal y.normal ≤ difference g.root.normal x.normal + difference g.root.normal y.normal := by
  refine ⟨⟨difference_comm, fun _ _ => difference_eq_zero_iff, difference_triangle⟩, matching_le_longest, ?_⟩
  intro r bs c g _ x _ y _
  rw [difference_comm g.root.normal x.normal]
  exact difference_triangle ..

def variants : Bucket :=
  let block (source : String) (text : String) : Block := ⟨source, 1, 5, text.toList, text.toList⟩
  ⟨['p'], [block "a" "p\nq\nr\ns\nt", block "b" "p\nq\nr\ns\nu", block "c" "p\nq\nr\nv\nt"]⟩

-- Three texts that make one group by default, in which the second is as far from the third as the first lets it be.
theorem difference_variants :
    (groups (Scan.grouping {}) [variants] {}).1.map Group.members = [variants.blocks] ∧
    (variants.blocks.map fun x => variants.blocks.map fun y => difference x.normal y.normal) =
      [[0, 1, 1], [1, 0, 2], [1, 2, 0]] ∧
    ∀ g ∈ (groups (Scan.grouping {}) [variants] {}).1, ∀ x ∈ g.members, ∀ y ∈ g.members,
      difference x.normal y.normal ≤ difference g.root.normal x.normal + difference g.root.normal y.normal :=
  ⟨by decide +kernel, by decide +kernel, isMetric_difference_and_members.right.right (Scan.grouping {}) [variants] {}⟩

end Bucket
end DuplicateBlocks
