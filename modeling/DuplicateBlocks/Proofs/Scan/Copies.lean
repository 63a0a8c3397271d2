import DuplicateBlocks.Proofs.Scan.Detection
import DuplicateBlocks.Proofs.Window
import Mathlib.Data.List.Pairwise
import Mathlib.Data.Nat.ModEq

namespace DuplicateBlocks

open Text

-- A run of lines that a source has after its first `p` lines.
def Source.HasAt (u : Source) (p : Nat) (run : List (List Char)) : Prop :=
  run <+: (sourceLines u.text).drop p

instance (u : Source) (p : Nat) (run : List (List Char)) : Decidable (u.HasAt p run) :=
  inferInstanceAs (Decidable (run <+: (sourceLines u.text).drop p))

namespace Source.HasAt

variable {u : Source} {p r w : Nat} {run : List (List Char)}

theorem length_le (h : u.HasAt p run) (hn : run ≠ []) : p + run.length ≤ (sourceLines u.text).length := by
  have hl := List.IsPrefix.length_le h
  have hp := List.length_pos_iff.mpr hn
  rw [List.length_drop] at hl
  omega

theorem take_drop (h : u.HasAt p run) (hl : r + w ≤ run.length) :
    ((sourceLines u.text).drop (p + r)).take w = (run.drop r).take w := by
  have ⟨rest, hr⟩ := h
  rw [← List.drop_drop, ← hr, List.drop_append_of_le_length (by omega),
    List.take_append_of_le_length (by simp; omega)]

theorem newline_not_mem (h : u.HasAt p run) : ∀ l ∈ run, newline ∉ l :=
  fun _ hl => newline_not_mem_of_mem_sourceLines (List.drop_subset _ _ (h.subset hl))

end Source.HasAt

namespace Window

-- Of so many lines as a window moves on, one is the start of a window; the same one if the windows are in step.
theorem exists_start {w p q : Nat} (h : p ≡ q [MOD stride w]) :
    ∃ r < stride w, stride w ∣ p + r ∧ stride w ∣ q + r := by
  have hs : 0 < stride w := Nat.le_max_left ..
  have hp : stride w ∣ p + (stride w - p % stride w) % stride w := by
    have hd := Nat.div_add_mod p (stride w)
    have hm := Nat.mod_lt p hs
    rw [Nat.dvd_iff_mod_eq_zero, Nat.add_mod_mod, Nat.add_mod]
    by_cases hz : p % stride w = 0
    case pos => simp [hz]
    case neg =>
      rw [Nat.mod_eq_of_lt (by omega : stride w - p % stride w < stride w), Nat.add_sub_cancel' (Nat.le_of_lt hm),
        Nat.mod_self]
  exact ⟨_, Nat.mod_lt _ hs, hp, ((h.add_right _).dvd_iff dvd_rfl).mp hp⟩

def ofRun (w p r : Nat) (run : List (List Char)) : Window :=
  ⟨p + r, (run.drop r).take w⟩

theorem ofRun_mem_all {u : Source} {w p r : Nat} {run : List (List Char)} (hw : 0 < w) (h : u.HasAt p run)
    (hd : stride w ∣ p + r) (hl : r + w ≤ run.length) : ofRun w p r run ∈ all w u.lineArray := by
  have hn : run ≠ [] := fun hn => by simp [hn] at hl; omega
  have hr := h.length_le hn
  rw [ofRun, ← h.take_drop hl]
  exact mem_all hd (by omega)

theorem isDense_ofRun {w p r : Nat} {run : List (List Char)} (hl : r + w ≤ run.length)
    (h : ∀ l ∈ run, isSubstantive l = true) : (ofRun w p r run).isDense w = true := by
  refine isDense_of_forall ?_ fun l hm => h l ?_
  · simp only [ofRun, List.length_take, List.length_drop]
    omega
  · exact List.drop_subset _ _ (List.take_subset _ _ hm)

end Window

theorem Similarity.score_self {a : List Char} (h : a ≠ []) : score a a = .hundred := by
  simp [score, h]

namespace Scan

variable {s : Settings} {us : List Source} {a b : Source} {p q r : Nat} {run : List (List Char)}

-- The block that `s.window` lines of a run make, if the run stands in a source after `p` lines.
def runBlock (s : Settings) (u : Source) (p r : Nat) (run : List (List Char)) : Block :=
  let win := Window.ofRun s.window p r run
  win.block u.id s.window (Code.normalize s.code win.raw).text

theorem window_pos (s : Settings) : 0 < s.window :=
  Nat.le_max_left ..

theorem runBlock_mem_available (hu : a ∈ us) (he : s.excluded.excludes a.id = false) (ha : a.HasAt p run)
    (hd : Window.stride s.window ∣ p + r) (hl : r + s.window ≤ run.length)
    (hs : ∀ l ∈ run, Window.isSubstantive l = true) : runBlock s a p r run ∈ Harvest.available s us := by
  have hm := Window.ofRun_mem_all (window_pos s) ha hd hl
  refine List.mem_flatMap.mpr ⟨a, List.mem_filter.mpr ⟨hu, by simp [he]⟩, ?_⟩
  exact List.mem_map.mpr ⟨_, List.mem_filter.mpr ⟨hm, Window.isDense_ofRun hl hs⟩, rfl⟩

theorem runBlock_normal_ne_nil (ha : a.HasAt p run) (hl : r + s.window ≤ run.length)
    (hs : ∀ l ∈ run, Window.isSubstantive l = true) : (runBlock s a p r run).normal ≠ [] := by
  have hw := window_pos s
  have hm : ∀ l ∈ (run.drop r).take s.window, l ∈ run :=
    fun l hl => List.drop_subset _ _ (List.take_subset _ _ hl)
  have hn : (run.drop r).take s.window ≠ [] := by
    rw [← List.length_pos_iff, List.length_take, List.length_drop]
    omega
  have ⟨line, hline⟩ := List.exists_mem_of_ne_nil _ hn
  have hc := Window.codeWords_ne_nil (hs line (hm line hline))
  exact Code.normalize_unlines_ne_nil (fun l hl => ha.newline_not_mem l (hm l hl)) hline hc s.code

theorem runBlock_first (hb : (sourceLines a.text).length < Nat.pow 2 32) (ha : a.HasAt p run)
    (hl : r + s.window ≤ run.length) : (runBlock s a p r run).first.toNat = p + r + 1 := by
  have hw := window_pos s
  have hn : run ≠ [] := fun hn => by simp [hn] at hl; omega
  have hr := ha.length_le hn
  have hf : p + r + 1 < UInt32.size := by
    simp only [UInt32.size, Nat.pow_eq] at hb ⊢
    omega
  exact UInt32.toNat_ofNat_of_lt' hf

theorem duplicates_runBlock (ht : s.threshold.le .hundred = true) (hab : (sourceLines a.text).length < Nat.pow 2 32)
    (hbb : (sourceLines b.text).length < Nat.pow 2 32) (ha : a.HasAt p run) (hb : b.HasAt q run)
    (hl : r + s.window ≤ run.length) (hs : ∀ l ∈ run, Window.isSubstantive l = true)
    (hd : a.id ≠ b.id ∨ s.window ≤ (p - q) + (q - p)) :
    Duplicates s (runBlock s a p r run) (runBlock s b q r run) where
  fingerprint := rfl
  apart       := by
    intro ⟨he, hn⟩
    rw [Block.distance, runBlock_first hab ha hl, runBlock_first hbb hb hl] at hn
    cases hd
    case inl hd => exact hd he
    case inr hd => simp only [Settings.window] at hd; omega
  similar     := by
    have hn := runBlock_normal_ne_nil (s := s) ha hl hs
    exact (Similarity.score_self hn).symm ▸ ht

-- Two sources, or one source in two places, have the same run of substantive lines. If windows start at the same
-- lines of both copies, and the run is as long as it takes to hold one of them wherever it begins, a scan that is not
-- cut short reports something. The places have to be in different sources or a window apart. (Line numbers are
-- 32-bit words.)
theorem pooled_groups_ne_nil_of_copied (h : (pooled s us).counters.isPartial = false)
    (ht : s.threshold.le .hundred = true) (hw : ∀ u ∈ us, (sourceLines u.text).length < Nat.pow 2 32)
    (ha : a ∈ us ∧ s.excluded.excludes a.id = false) (hb : b ∈ us ∧ s.excluded.excludes b.id = false)
    (hp : a.HasAt p run) (hq : b.HasAt q run)
    (hl : s.window + Window.stride s.window - 1 ≤ run.length) (hm : p ≡ q [MOD Window.stride s.window])
    (hs : ∀ l ∈ run, Window.isSubstantive l = true)
    (hd : a.id ≠ b.id ∨ s.window ≤ (p - q) + (q - p)) : (pooled s us).groups ≠ [] := by
  have ⟨r, hr, hpr, hqr⟩ := Window.exists_start hm
  have hl : r + s.window ≤ run.length := by omega
  have hx := runBlock_mem_available ha.left ha.right hp hpr hl hs
  have hy := runBlock_mem_available hb.left hb.right hq hqr hl hs
  have hxy : Duplicates s (runBlock s a p r run) (runBlock s b q r run) :=
    duplicates_runBlock ht (hw a ha.left) (hw b hb.left) hp hq hl hs hd
  -- The two blocks are not one and the same, so they stand at different places.
  have hne : runBlock s a p r run ≠ runBlock s b q r run := by
    intro he
    refine hxy.apart ⟨congrArg Block.source he, ?_⟩
    rw [Block.distance, congrArg Block.first he, Nat.sub_self]
    exact Nat.lt_of_lt_of_le Nat.zero_lt_one (Nat.le_max_left ..)
  rw [ne_eq, pooled_groups_eq_nil_iff h]
  intro hn
  have : Std.Symm fun a b => ¬Duplicates s a b := ⟨fun _ _ hn hd => hn hd.symm⟩
  exact hn.forall hx hy hne hxy

-- Five lines that stand after one line of a source and after three lines of another. Windows of four lines start at
-- every second line, so that it takes five lines to hold one.
def five : List (List Char) :=
  [['1', ';'], ['2', ';'], ['3', ';'], ['4', ';'], ['5', ';']]

def copying : List Source :=
  [⟨"a", unlines (['0'] :: five)⟩, ⟨"b", unlines (['7'] :: ['8'] :: ['9'] :: five)⟩]

theorem pooled_copying_ne_nil :
    (pooled { minLines := 4 } copying).counters.isPartial = false ∧ (pooled { minLines := 4 } copying).groups ≠ [] := by
  have h : (pooled { minLines := 4 } copying).counters.isPartial = false := by
    rw [pooled, Bucket.ofBlocks_eq]
    decide +kernel
  have hp : Source.HasAt ⟨"a", unlines (['0'] :: five)⟩ 1 five := by decide +kernel
  have hq : Source.HasAt ⟨"b", unlines (['7'] :: ['8'] :: ['9'] :: five)⟩ 3 five := by decide +kernel
  have hw : ∀ u ∈ copying, (sourceLines u.text).length < Nat.pow 2 32 := by decide +kernel
  have hs : ∀ l ∈ five, Window.isSubstantive l = true := by decide
  have hm : 1 ≡ 3 [MOD Window.stride (Settings.window { minLines := 4 })] := by decide
  exact ⟨h, pooled_groups_ne_nil_of_copied h (by decide +kernel) hw ⟨.head _, by decide +kernel⟩
    ⟨.tail _ (.head _), by decide +kernel⟩ hp hq (by decide) hm hs (.inl (by decide))⟩

end Scan
end DuplicateBlocks
