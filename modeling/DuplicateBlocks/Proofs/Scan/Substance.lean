import DuplicateBlocks.Proofs.Code.Idempotence
import DuplicateBlocks.Proofs.Scan.Extraction

namespace DuplicateBlocks

open Text

namespace Code

variable {l : Limits} {ls : List (List Char)}

theorem length_comparedLines_canonicalize (l : Limits) (cs : List Char) :
    (comparedLines (canonicalize l cs).text).length = (comparedLines cs).length :=
  (renamed_canonicalize l cs).length_comparedLines

theorem length_comparedLines_normalize (h : ∀ line ∈ ls, newline ∉ line)
    (hb : Utf8.byteCount (unlines ls) ≤ l.contentBytes) :
    (comparedLines (normalize l (unlines ls)).text).length = ls.countP fun line => !(codeWords line).isEmpty := by
  rw [normalize_of_le hb, length_comparedLines_canonicalize, comparedLines_strip, codeLines_unlines h, List.length_map,
    ← List.countP_eq_length_filter, List.countP_map]
  rfl

end Code

namespace Window

-- Both ways to tell a comment see to it that a line which counts has code.
theorem countP_isSubstantive_le (ls : List (List Char)) :
    ls.countP isSubstantive ≤ ls.countP fun line => !(Code.codeWords line).isEmpty :=
  List.countP_mono_left fun line _ h => by simpa using codeWords_ne_nil h

end Window

-- A block that is not empty, and has nearly as many lines as its window unless it was too large to be looked at.
structure Block.Filled (s : Settings) (b : Block) : Prop where
  text  : b.normal ≠ []
  lines : Utf8.byteCount b.raw ≤ s.code.contentBytes →
    7 * s.window ≤ 10 * (comparedLines b.normal).length ∧ (comparedLines b.normal).length ≤ s.window

namespace Source

variable {s : Settings} {u : Source} {b : Block} {w k : Nat}

theorem newline_not_mem_of_mem_stretch {line : List Char} (h : line ∈ u.stretch w k) : newline ∉ line :=
  newline_not_mem_of_mem_sourceLines (List.mem_of_mem_drop (List.mem_of_mem_take h))

theorem filled_of_mem_blocks (hb : b ∈ u.blocks s.code s.window) : b.Filled s := by
  rw [blocks_eq_map_yielding] at hb
  have ⟨k, hk, he⟩ := List.mem_map.mp hb
  have hy := mem_yielding_iff.mp hk
  have hr : b.raw = unlines (u.stretch s.window k) := he ▸ congrArg unlines (lines_after u s.window k)
  have hn : b.normal = (Code.normalize s.code (unlines (u.stretch s.window k))).text := by
    rw [← hr, ← he]
    rfl
  have hl : ∀ line ∈ u.stretch s.window k, newline ∉ line := fun _ => newline_not_mem_of_mem_stretch
  constructor
  case text =>
    have hw : 0 < s.window := Nat.le_max_left ..
    have hc : 0 < (u.stretch s.window k).countP Window.isSubstantive := by
      have := hy.dense
      omega
    have ⟨line, hm, hs⟩ := List.countP_pos_iff.mp hc
    rw [hn]
    exact Code.normalize_unlines_ne_nil hl hm (Window.codeWords_ne_nil hs) s.code
  case lines =>
    intro hb
    rw [hr] at hb
    rw [hn, Code.length_comparedLines_normalize hl hb]
    have hd := hy.dense
    have hle := Window.countP_isSubstantive_le (u.stretch s.window k)
    have hw : (u.stretch s.window k).length ≤ s.window := List.length_take_le ..
    exact ⟨by omega, Nat.le_trans List.countP_le_length hw⟩

end Source

-- The similarity of two texts, where two empty texts score `v`.
def Similarity.scoreOr (v : Binary64) (a b : List Char) : Binary64 :=
  if a.isEmpty && b.isEmpty then v else score a b

namespace Scan

variable {s : Settings}

def pooledBy (g : Grouping Block) (s : Settings) (us : List Source) : Scan :=
  let h := Harvest.ofSources s us
  let buckets := Bucket.ofBlocks h.blocks.reverse
  let (groups, counters) := Bucket.groups g buckets { h.counters with buckets := .ofNat buckets.length }
  { groups, counters }

theorem pooledBy_grouping (s : Settings) (us : List Source) : pooledBy (grouping s) s us = pooled s us := rfl

def groupingOr (v : Binary64) (s : Settings) : Grouping Block :=
  { grouping s with score := fun a b => Similarity.scoreOr v a.normal b.normal }

theorem ne_nil_of_mem_ofBlocks {bs : List Block} (h : ∀ b ∈ bs, b.normal ≠ []) :
    ∀ xs ∈ (Bucket.ofBlocks bs).map Bucket.blocks, ∀ b ∈ xs, b.normal ≠ [] := by
  intro xs hx b hb
  have ⟨bucket, hm, he⟩ := List.mem_map.mp hx
  rw [← he, (Bucket.mem_ofBlocks.mp hm).right] at hb
  exact h b (Bucket.mem_sharing.mp hb).left

theorem pooledBy_groupingOr (v : Binary64) (s : Settings) (us : List Source) :
    pooledBy (groupingOr v s) s us = pooled s us := by
  have hb : ∀ b ∈ (Harvest.ofSources s us).blocks.reverse, b.normal ≠ [] := by
    intro b hb
    have ⟨u, _, hu⟩ := Harvest.exists_source_of_mem_ofSources (List.mem_reverse.mp hb)
    exact (Source.filled_of_mem_blocks hu).text
  have hs : ∀ a b : Block, a.normal ≠ [] → b.normal ≠ [] →
      (grouping s).score a b = Similarity.scoreOr v a.normal b.normal := by
    intro a b ha _
    rw [Similarity.scoreOr, if_neg (by simp [ha])]
    rfl
  simp only [← pooledBy_grouping, pooledBy, Bucket.groups, groupingOr,
    Grouping.runAll_congr_score hs (ne_nil_of_mem_ofBlocks hb)]

-- Every block has code in it, so that two empty texts are never compared: whatever they would score, a scan comes out
-- the same. (Scans for the first group, and of each source on its own, are made of such scans.)
theorem filled_of_mem_blocks_and_pooledBy_eq (s : Settings) :
    (∀ u : Source, ∀ b ∈ u.blocks s.code s.window, b.Filled s) ∧
      ∀ (us : List Source) (v : Binary64), pooledBy (groupingOr v s) s us = pooled s us :=
  ⟨fun _ _ => Source.filled_of_mem_blocks, fun us v => pooledBy_groupingOr v s us⟩

-- Four lines, of which one is a comment behind a blank, and another one ends in a comment.
def commented : Source :=
  ⟨"a", "\u3000f(); // first\n\t/* none */\na / b;\n; *\n".toList⟩

theorem filled_commented :
    ∃ b ∈ commented.blocks ({ minLines := 4 } : Settings).code 4,
      Utf8.byteCount b.raw ≤ ({} : Settings).code.contentBytes ∧ b.Filled { minLines := 4 } ∧
      28 ≤ 10 * (comparedLines b.normal).length ∧
      pooledBy (groupingOr .hundred { minLines := 4 }) { minLines := 4 } [commented] =
        pooled { minLines := 4 } [commented] := by
  have hb : (commented.blocks ({ minLines := 4 } : Settings).code 4).map (fun b => Utf8.byteCount b.raw) = [39] := by
    decide +kernel
  have ⟨b, hm, he⟩ := List.mem_map.mp (hb ▸ List.mem_singleton_self 39)
  have hr : Utf8.byteCount b.raw ≤ ({} : Settings).code.contentBytes := he ▸ by decide
  have ⟨hb, hp⟩ := filled_of_mem_blocks_and_pooledBy_eq { minLines := 4 }
  have hf := hb commented b hm
  exact ⟨b, hm, hr, hf, (hf.lines hr).left, hp [commented] .hundred⟩

end Scan
end DuplicateBlocks
