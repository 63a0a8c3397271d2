import DuplicateBlocks.Proofs.Bucket
import DuplicateBlocks.Proofs.Code.Normalization
import DuplicateBlocks.Proofs.Grouping.Map
import DuplicateBlocks.Proofs.Harvest
import DuplicateBlocks.Proofs.Scan.Progress
import DuplicateBlocks.Proofs.Window

namespace DuplicateBlocks

open Code

namespace Window

variable {ρ : Renaming} {win win' : Window} {w : Nat}

theorem isSubstantive_renamed {line line' : List Char} (h : Code.Renamed ρ.word line line') :
    isSubstantive line' = isSubstantive line := by
  have ht := h.trimStart
  have he : (Text.trimStart line').isEmpty = (Text.trimStart line).isEmpty := by
    rw [Bool.eq_iff_iff, List.isEmpty_iff, List.isEmpty_iff, ht.eq_nil_iff]
  have hs : ∀ c, isWordChar c = true → (c == '*') = false := by
    intro c hc
    exact beq_false_of_ne (ne_of_isWordChar hc (by decide))
  rw [isSubstantive_eq, isSubstantive_eq, he, ht.any_head? hs, ht.opens_eq]

theorem countP_isSubstantive {lines lines' : List (List Char)}
    (h : List.Forall₂ (Code.Renamed ρ.word) lines lines') :
    lines'.countP isSubstantive = lines.countP isSubstantive := by
  induction h
  case nil => rfl
  case cons hx _ hi => rw [List.countP_cons, List.countP_cons, hi, isSubstantive_renamed hx]

structure Renamed (ρ : Renaming) (win win' : Window) : Prop where
  offset : win'.offset = win.offset
  lines  : List.Forall₂ (Code.Renamed ρ.word) win.lines win'.lines

namespace Renamed

theorem raw (h : Renamed ρ win win') : Code.Renamed ρ.word win.raw win'.raw :=
  Code.Renamed.intercalate (by decide) h.lines

theorem isDense (h : Renamed ρ win win') (w : Nat) : win'.isDense w = win.isDense w := by
  rw [Window.isDense, Window.isDense, countP_isSubstantive h.lines]

end Renamed

theorem all_renamed {lines lines' : List (List Char)} (h : List.Forall₂ (Code.Renamed ρ.word) lines lines') (w : Nat) :
    List.Forall₂ (Renamed ρ) (all w lines.toArray) (all w lines'.toArray) := by
  simp only [all_eq, List.size_toArray, ← h.length_eq, List.forall₂_map_left_iff, List.forall₂_map_right_iff,
    List.forall₂_same]
  intro k _
  refine ⟨rfl, ?_⟩
  rw [lines_after, lines_after]
  exact List.forall₂_take _ (List.forall₂_drop _ h)

end Window

-- No text was too large to be normalized, and no name was left unreplaced.
@[mk_iff]
structure Counters.IsComplete (c : Counters) : Prop where
  oversized : c.oversized = 0
  untracked : c.untracked = 0
  tooLong   : c.tooLong = 0

theorem Counters.isComplete_congr {c d : Counters} (ho : d.oversized = c.oversized)
    (hu : d.untracked = c.untracked) (hl : d.tooLong = c.tooLong) : d.IsComplete ↔ c.IsComplete := by
  rw [isComplete_iff, isComplete_iff, ho, hu, hl]

theorem Counters.isComplete_recordNormal {c : Counters} {n : Normal} :
    (c.recordNormal n).IsComplete ↔ c.IsComplete ∧ n.IsComplete := by
  have hs : n.skipped.toNat = 0 ↔ n.skipped = false := Bool.toNat_eq_zero
  simp only [Counters.isComplete_iff, Normal.isComplete_iff, Counters.recordNormal, Counters.record,
    Tally.add_ofNat_eq_zero, hs]
  tauto

-- A block without its literal text. Nothing else differs between a block and its renamed copy.
def Block.bare (b : Block) : Block :=
  { b with raw := [] }

def Source.rename (ρ : Renaming) (u : Source) : Source :=
  { u with text := ρ.rename u.text }

def Source.IsRenamed (u u' : Source) : Prop :=
  ∃ ρ : Renaming, u' = u.rename ρ

namespace Harvest

variable {s : Settings} {id : String} {win win' : Window} {wins wins' : List Window} {h h' : Harvest} {ρ : Renaming}

theorem isComplete_reject : h.reject.counters.IsComplete ↔ h.counters.IsComplete :=
  Counters.isComplete_congr rfl rfl rfl

theorem isComplete_refuse {n : Normal} :
    (h.refuse n).counters.IsComplete ↔ h.counters.IsComplete ∧ n.IsComplete := by
  rw [← Counters.isComplete_recordNormal]
  exact Counters.isComplete_congr rfl rfl rfl

theorem isComplete_accept {n : Normal} {b : Block} :
    (h.accept n b).counters.IsComplete ↔ h.counters.IsComplete ∧ n.IsComplete := by
  rw [← Counters.isComplete_recordNormal]
  exact Counters.isComplete_congr rfl rfl rfl

theorem isComplete_next :
    (h.next s id win).counters.IsComplete ↔
      h.counters.IsComplete ∧ (win.isDense s.window = true → (normalize s.code win.raw).IsComplete) := by
  cases hd : win.isDense s.window <;> simp only [next, hd, if_true, Bool.false_eq_true, if_false]
  case false => simp [isComplete_reject]
  case true  => simp [isComplete_accept]

theorem isComplete_of_gather (hc : (gather s id wins h).2.counters.IsComplete) : h.counters.IsComplete := by
  induction wins generalizing h
  case nil => exact hc
  case cons win wins hi =>
    rw [gather_cons] at hc
    split at hc
    case isTrue  => exact (isComplete_refuse.mp hc).left
    case isFalse => exact (isComplete_next.mp (hi hc)).left

theorem isComplete_of_addSource {u : Source} (hc : (addSource s u h).2.counters.IsComplete) :
    h.counters.IsComplete := by
  unfold addSource at hc
  split at hc
  case isTrue  => exact hc
  case isFalse =>
    have hh := isComplete_of_gather hc
    exact ⟨hh.oversized, hh.untracked, hh.tooLong⟩

theorem isComplete_of_addSources {us : List Source} (hc : (addSources s us h).counters.IsComplete) :
    h.counters.IsComplete := by
  induction us generalizing h
  case nil => exact hc
  case cons u us hi =>
    rw [addSources] at hc
    split at hc
    case isTrue  =>
      have hh := hi hc
      exact ⟨hh.oversized, hh.untracked, hh.tooLong⟩
    case isFalse =>
      cases ha : (addSource s u h).1 <;> simp only [ha, if_true, Bool.false_eq_true, if_false] at hc
      case true  => exact isComplete_of_addSource (hi hc)
      case false => exact isComplete_of_addSource hc

-- A source whose blocks are all complete. A harvest of such sources is complete.
def IsClean (s : Settings) (u : Source) : Prop :=
  ∀ win ∈ Window.all s.window u.lineArray, win.isDense s.window = true → (normalize s.code win.raw).IsComplete

theorem isComplete_gather (hh : h.counters.IsComplete)
    (hw : ∀ win ∈ wins, win.isDense s.window = true → (normalize s.code win.raw).IsComplete) :
    (gather s id wins h).2.counters.IsComplete := by
  induction wins generalizing h
  case nil => exact hh
  case cons win wins hi =>
    have ⟨hx, hw⟩ := List.forall_mem_cons.mp hw
    rw [gather_cons]
    split
    case isTrue hd => exact isComplete_refuse.mpr ⟨hh, hx hd.left⟩
    case isFalse   => exact hi (isComplete_next.mpr ⟨hh, hx⟩) hw

theorem isComplete_addSource {u : Source} (hh : h.counters.IsComplete) (hu : IsClean s u) :
    (addSource s u h).2.counters.IsComplete := by
  unfold addSource
  split
  case isTrue  => exact hh
  case isFalse => exact isComplete_gather ⟨hh.oversized, hh.untracked, hh.tooLong⟩ hu

theorem isComplete_addSources {us : List Source} (hh : h.counters.IsComplete) (hu : ∀ u ∈ us, IsClean s u) :
    (addSources s us h).counters.IsComplete := by
  induction us generalizing h
  case nil => exact hh
  case cons u us hi =>
    have ⟨hx, hu⟩ := List.forall_mem_cons.mp hu
    rw [addSources]
    split
    case isTrue  => exact hi ⟨hh.oversized, hh.untracked, hh.tooLong⟩ hu
    case isFalse =>
      have ha := isComplete_addSource hh hx
      simp only
      split
      case isTrue  => exact hi ha hu
      case isFalse => exact ha

-- Harvests of the same blocks, their literal texts apart.
structure Matches (h h' : Harvest) : Prop where
  counters : h'.counters = h.counters
  blocks   : h'.blocks.map Block.bare = h.blocks.map Block.bare

namespace Matches

theorem refuse (m : h.Matches h') (n : Normal) : (h.refuse n).Matches (h'.refuse n) where
  counters := by simp only [Harvest.refuse, m.counters]
  blocks   := m.blocks

theorem next (m : h.Matches h') (hw : Window.Renamed ρ win win')
    (hc : (h.next s id win).counters.IsComplete) (hc' : (h'.next s id win').counters.IsComplete) :
    (h.next s id win).Matches (h'.next s id win') := by
  have ⟨_, hn⟩ := isComplete_next.mp hc
  have ⟨_, hn'⟩ := isComplete_next.mp hc'
  rw [hw.isDense] at hn'
  unfold Harvest.next
  rw [hw.isDense]
  split
  case isTrue hd =>
    -- Both windows become blocks here, and complete texts have one normal form.
    rw [hw.raw.normalize (hn hd) (hn' hd)]
    constructor
    case counters => simp only [Harvest.accept, m.counters]
    case blocks   => simp [Harvest.accept, m.blocks, Window.block, Block.bare, hw.offset]
  case isFalse =>
    exact ⟨by simp only [Harvest.reject, m.counters], m.blocks⟩

theorem gather (m : h.Matches h') (hw : List.Forall₂ (Window.Renamed ρ) wins wins')
    (hc : (gather s id wins h).2.counters.IsComplete) (hc' : (Harvest.gather s id wins' h').2.counters.IsComplete) :
    (Harvest.gather s id wins' h').1 = (Harvest.gather s id wins h).1 ∧
      (Harvest.gather s id wins h).2.Matches (Harvest.gather s id wins' h').2 := by
  induction hw generalizing h h'
  case nil => exact ⟨rfl, m⟩
  case cons win win' wins wins' hx _ hi =>
    simp only [gather_cons, hx.isDense, m.counters] at hc hc' ⊢
    -- The ceiling is met at the same window or at none.
    by_cases hd : win.isDense s.window ∧ s.maxBlocks ≤ h.counters.blocks.toNat
    case pos =>
      simp only [if_pos hd] at hc hc' ⊢
      have hn := (isComplete_refuse.mp hc).right
      have hn' := (isComplete_refuse.mp hc').right
      exact ⟨trivial, hx.raw.normalize hn hn' ▸ m.refuse _⟩
    case neg =>
      simp only [if_neg hd] at hc hc' ⊢
      exact hi (m.next hx (isComplete_of_gather hc) (isComplete_of_gather hc')) hc hc'

theorem addSource (m : h.Matches h') {u : Source} (hc : (addSource s u h).2.counters.IsComplete)
    (hc' : (Harvest.addSource s (u.rename ρ) h').2.counters.IsComplete) :
    (Harvest.addSource s (u.rename ρ) h').1 = (Harvest.addSource s u h).1 ∧
      (Harvest.addSource s u h).2.Matches (Harvest.addSource s (u.rename ρ) h').2 := by
  have hl : List.Forall₂ (Code.Renamed ρ.word) (Text.sourceLines u.text) (Text.sourceLines (u.rename ρ).text) :=
    (Code.Renamed.rename ρ u.text).sourceLines
  have hw := Window.all_renamed hl s.window
  have hs : (u.rename ρ).lineArray.size = u.lineArray.size := by
    simp [Source.lineArray, hl.length_eq]
  unfold Harvest.addSource at *
  simp only [m.counters, hs] at hc hc' ⊢
  cases ht : h.counters.blocksTruncated <;> simp only [ht, if_true, Bool.false_eq_true, if_false] at hc hc' ⊢
  case true  => exact ⟨trivial, m⟩
  case false => exact gather ⟨rfl, m.blocks⟩ hw hc hc'

theorem addSources {us us' : List Source} (m : h.Matches h') (hu : List.Forall₂ Source.IsRenamed us us')
    (hc : (addSources s us h).counters.IsComplete) (hc' : (Harvest.addSources s us' h').counters.IsComplete) :
    (Harvest.addSources s us h).Matches (Harvest.addSources s us' h') := by
  induction hu generalizing h h'
  case nil => exact m
  case cons u _ us us' hu _ hi =>
    have ⟨ρ, he⟩ := hu
    subst he
    have hx : s.excluded.excludes (u.rename ρ).id = s.excluded.excludes u.id := rfl
    simp only [Harvest.addSources, hx, m.counters] at hc hc' ⊢
    cases ht : s.excluded.excludes u.id <;> simp only [ht, if_true, Bool.false_eq_true, if_false] at hc hc' ⊢
    case true => exact hi ⟨rfl, m.blocks⟩ hc hc'
    case false =>
      -- What comes after this source cannot make up for what is left undone in it.
      have hs : (Harvest.addSource s u h).2.counters.IsComplete := by
        split at hc
        case isTrue  => exact isComplete_of_addSources hc
        case isFalse => exact hc
      have hs' : (Harvest.addSource s (u.rename ρ) h').2.counters.IsComplete := by
        split at hc'
        case isTrue  => exact isComplete_of_addSources hc'
        case isFalse => exact hc'
      obtain ⟨ha, hm⟩ := m.addSource hs hs'
      rw [ha] at hc' ⊢
      cases hd : (Harvest.addSource s u h).1 <;> simp only [hd, if_true, Bool.false_eq_true, if_false] at hc hc' ⊢
      case true  => exact hi hm hc hc'
      case false => exact hm

end Matches
end Harvest

-- What is told about a group, its literal text apart.
structure Group.Outline where
  members    : List (String × UInt32 × UInt32)
  fileCount  : Nat
  isSameFile : Bool
  lowest     : Binary64
  digest     : UInt64
  deriving DecidableEq

def Group.outline (g : Group) : Outline where
  members    := g.members.map fun b => (b.source, b.first, b.last)
  fileCount  := g.fileCount
  isSameFile := g.isSameFile
  lowest     := g.lowest
  digest     := g.digest

namespace Scan

open Grouping

variable {s : Settings} {us us' : List Source}

theorem along_bare (s : Settings) : Along Block.bare (grouping s) (grouping s) :=
  ⟨fun _ _ => rfl, fun _ _ => rfl, rfl⟩

theorem map_blocks_bare (bs : List Block) :
    ((Bucket.ofBlocks bs).map Bucket.blocks).map (List.map Block.bare) =
      (Bucket.ofBlocks (bs.map Block.bare)).map Bucket.blocks := by
  rw [Bucket.map_blocks_ofBlocks, Bucket.map_blocks_ofBlocks, sortedBy_map, List.filter_map]
  simp only [Function.comp_def, List.length_map]
  rfl

theorem outline_bare (k : Cluster Block) : (k.map Block.bare).group.outline = k.group.outline := by
  have hm {β : Type} (f : Block → β) (hf : ∀ b, f b.bare = f b) :
      (k.map Block.bare).group.members.map f = k.group.members.map f := by
    simp [Group.members, Cluster.group, Cluster.map, hf]
  simp only [Group.outline, Group.isSameFile, Group.fileCount]
  rw [hm Block.source fun _ => rfl, hm (fun b => (b.source, b.first, b.last)) fun _ => rfl]
  rfl

theorem isComplete_ungrouped {c : Counters} : (ungrouped c).IsComplete ↔ c.IsComplete :=
  Counters.isComplete_congr rfl rfl rfl

theorem isComplete_progress {h : Harvest} : (progress s h).counters.IsComplete ↔ h.counters.IsComplete := by
  rw [← isComplete_ungrouped, ungrouped_progress, isComplete_ungrouped]
  exact Counters.isComplete_congr rfl rfl rfl

theorem isComplete_of_forall {us : List Source} (h : ∀ u ∈ us, Harvest.IsClean s u) :
    (pooled s us).counters.IsComplete :=
  isComplete_progress.mpr (Harvest.isComplete_addSources ⟨rfl, rfl, rfl⟩ h)

theorem map_progress {h h' : Harvest} (m : h.Matches h') :
    (progress s h').map Block.bare = (progress s h).map Block.bare := by
  have hb : ((Bucket.ofBlocks h'.blocks.reverse).map Bucket.blocks).map (List.map Block.bare) =
      ((Bucket.ofBlocks h.blocks.reverse).map Bucket.blocks).map (List.map Block.bare) := by
    rw [map_blocks_bare, map_blocks_bare, List.map_reverse, List.map_reverse, m.blocks]
  have hl : (Bucket.ofBlocks h'.blocks.reverse).length = (Bucket.ofBlocks h.blocks.reverse).length := by
    simpa using congrArg List.length hb
  rw [progress, progress, (along_bare s).runAll rfl, (along_bare s).runAll rfl, hb, hl, m.counters]

-- Sources of which each is renamed in its own way have the same groups, in the same order and at the same
-- places, and the same counters. Only names that are left as they are can tell the difference.
theorem pooled_renamed (hu : List.Forall₂ Source.IsRenamed us us') (hc : (pooled s us).counters.IsComplete)
    (hc' : (pooled s us').counters.IsComplete) :
    (pooled s us').groups.map Group.outline = (pooled s us).groups.map Group.outline ∧
      (pooled s us').counters = (pooled s us).counters := by
  have m : (Harvest.ofSources s us).Matches (Harvest.ofSources s us') := by
    refine Harvest.Matches.addSources ⟨?_, rfl⟩ hu (isComplete_progress.mp hc) (isComplete_progress.mp hc')
    rw [hu.length_eq]
  have hp := map_progress (s := s) m
  have hg (vs : List Source) : (pooled s vs).groups.map Group.outline =
      ((progress s (Harvest.ofSources s vs)).map Block.bare).found.reverse.map fun k => k.group.outline := by
    simp only [Progress.map, ← List.map_reverse, List.map_map, Function.comp_def, outline_bare]
    exact List.map_map
  constructor
  case left  => rw [hg, hg, hp]
  case right =>
    rw [pooled_counters, pooled_counters]
    exact (congrArg Progress.counters hp :)

def functions : List Source :=
  [⟨"a", "let x1=f(2);".toList⟩, ⟨"b", "let y=g(2);".toList⟩]

def changed : List Source :=
  [⟨"a", "let f=x1(2);".toList⟩, ⟨"b", "let z=g(2);".toList⟩]

theorem isRenamed_functions : List.Forall₂ Source.IsRenamed functions changed :=
  .cons ⟨.swap ['x', '1'] ['f'] (by decide +kernel) (by decide +kernel), by decide +kernel⟩ <|
    .cons ⟨.swap ['y'] ['z'] (by decide +kernel) (by decide +kernel), by decide +kernel⟩ .nil

theorem pooled_renamed_functions :
    (pooled { minLines := 1 } functions).counters.IsComplete ∧
      (pooled { minLines := 1 } changed).counters.IsComplete ∧
      (pooled { minLines := 1 } changed).groups.map Group.outline =
        (pooled { minLines := 1 } functions).groups.map Group.outline := by
  have hf : (pooled { minLines := 1 } functions).counters.IsComplete := by
    apply isComplete_of_forall
    simp only [Harvest.IsClean, isComplete_normalize_iff, isComplete_iff_length_le]
    decide +kernel
  have hc : (pooled { minLines := 1 } changed).counters.IsComplete := by
    apply isComplete_of_forall
    simp only [Harvest.IsClean, isComplete_normalize_iff, isComplete_iff_length_le]
    decide +kernel
  exact ⟨hf, hc, (pooled_renamed isRenamed_functions hf hc).left⟩

end Scan
end DuplicateBlocks
