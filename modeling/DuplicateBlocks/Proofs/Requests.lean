import DuplicateBlocks.Counters
import DuplicateBlocks.Settings
import Mathlib.Algebra.BigOperators.Group.List.Basic
import Mathlib.Algebra.GroupWithZero.Nat
import Mathlib.Data.List.Induction

open scoped List

namespace DuplicateBlocks

namespace Counters

variable {limit n : Nat}

-- One more request under a ceiling, when so many were admitted and one was refused or not: the answer, and both after.
def ask (limit : Nat) (admitted : Tally) (refused : Bool) : Bool × Tally × Bool :=
  if limit ≤ admitted.toNat then (false, admitted, true) else (true, admitted.succ, refused)

theorem admitBlock_eq (limit : Nat) (c : Counters) :
    c.admitBlock limit =
      let (answer, admitted, refused) := ask limit c.blocks c.blocksTruncated
      (answer, { c with blocks := admitted, blocksTruncated := refused }) := by
  unfold admitBlock ask
  split <;> rfl

theorem admitComparison_eq (limit : Nat) (c : Counters) :
    c.admitComparison limit =
      let (answer, admitted, refused) := ask limit c.comparisons c.comparisonsTruncated
      (answer, { c with comparisons := admitted, comparisonsTruncated := refused }) := by
  unfold admitComparison ask
  split <;> rfl

-- After `n` requests as many are admitted as the ceiling allows. A ceiling is met before the counter stops by itself.
theorem ask_ofNat_min (h : limit ≤ Tally.cap) (n : Nat) :
    ask limit (.ofNat (min n limit)) (limit < n) =
      (decide (n < limit), Tally.ofNat (min (n + 1) limit), decide (limit < n + 1)) := by
  have hm : limit ≤ (Tally.ofNat (min n limit)).toNat ↔ limit ≤ n := by
    rw [Tally.toNat_ofNat]
    omega
  unfold ask
  split
  case isTrue hl =>
    have hl := hm.mp hl
    have he : min (n + 1) limit = min n limit := by omega
    rw [he, decide_eq_false (Nat.not_lt.mpr hl), decide_eq_true (Nat.lt_succ_of_le hl)]
  case isFalse hl =>
    have hl : n < limit := Nat.not_le.mp (mt hm.mpr hl)
    have hs : (Tally.ofNat (min n limit)).succ = .ofNat (min (n + 1) limit) := by
      rw [Tally.succ, ← Tally.ofNat_add, Nat.min_eq_left (Nat.le_of_lt hl), Nat.min_eq_left hl]
    rw [hs, decide_eq_true hl, decide_eq_false (Nat.lt_asymm hl), decide_eq_false (Nat.not_lt.mpr hl)]

end Counters

-- What a stage of a scan asks for, or, when it has normalized blocks, gives account of.
inductive Request where
  | block
  | comparison
  | record (oversized untracked tooLong : Nat)
  deriving DecidableEq

namespace Request

variable {s : Settings} {rs rs' : List Request}

-- The answer to a request, if it asks for something, and the counters after it.
def serve (s : Settings) (c : Counters) : Request → Option Bool × Counters
  | block =>
    let (admitted, c) := c.admitBlock s.maxBlocks
    (some admitted, c)
  | comparison =>
    let (admitted, c) := c.admitComparison s.maxComparisons
    (some admitted, c)
  | record oversized untracked tooLong => (none, c.record oversized untracked tooLong)

def after (s : Settings) (rs : List Request) : Counters :=
  rs.foldl (fun c r => (r.serve s c).2) {}

def answer (s : Settings) (rs : List Request) (r : Request) : Option Bool :=
  (r.serve s (after s rs)).1

def oversized : Request → Nat
  | record n _ _ => n
  | _ => 0

def untracked : Request → Nat
  | record _ n _ => n
  | _ => 0

def tooLong : Request → Nat
  | record _ _ n => n
  | _ => 0

-- What the requests come to, told by their numbers.
def tallied (s : Settings) (rs : List Request) : Counters where
  blocks := .ofNat (min (rs.count block) s.maxBlocks)
  blocksTruncated := s.maxBlocks < rs.count block
  comparisons := .ofNat (min (rs.count comparison) s.maxComparisons)
  comparisonsTruncated := s.maxComparisons < rs.count comparison
  oversized := .ofNat (rs.map oversized).sum
  untracked := .ofNat (rs.map untracked).sum
  tooLong := .ofNat (rs.map tooLong).sum

def told (s : Settings) (rs : List Request) : Request → Option Bool
  | block => some (rs.count block < s.maxBlocks)
  | comparison => some (rs.count comparison < s.maxComparisons)
  | record .. => none

theorem serve_tallied (hb : s.maxBlocks ≤ Tally.cap) (hc : s.maxComparisons ≤ Tally.cap) (rs : List Request)
    (r : Request) : r.serve s (tallied s rs) = (told s rs r, tallied s (rs ++ [r])) := by
  cases r
  case block =>
    simp only [serve, Counters.admitBlock_eq, tallied, Counters.ask_ofNat_min hb]
    simp [told, oversized, untracked, tooLong]
  case comparison =>
    simp only [serve, Counters.admitComparison_eq, tallied, Counters.ask_ofNat_min hc]
    simp [told, oversized, untracked, tooLong]
  case record =>
    simp [serve, Counters.record, told, tallied, oversized, untracked, tooLong, Tally.ofNat_add]

theorem after_concat (s : Settings) (rs : List Request) (r : Request) :
    after s (rs ++ [r]) = (r.serve s (after s rs)).2 := by
  rw [after, List.foldl_append]
  rfl

theorem after_eq_tallied (hb : s.maxBlocks ≤ Tally.cap) (hc : s.maxComparisons ≤ Tally.cap) (rs : List Request) :
    after s rs = tallied s rs := by
  induction rs using List.reverseRecOn
  case nil => simp [after, tallied]; rfl
  case append_singleton rs r hi => rw [after_concat, hi, serve_tallied hb hc]

theorem answer_eq_told (hb : s.maxBlocks ≤ Tally.cap) (hc : s.maxComparisons ≤ Tally.cap) (rs : List Request)
    (r : Request) : answer s rs r = told s rs r := by
  rw [answer, after_eq_tallied hb hc, serve_tallied hb hc]

theorem tallied_perm (h : rs ~ rs') : tallied s rs = tallied s rs' := by
  simp only [tallied, h.count_eq, (h.map _).sum_eq]

theorem told_append (h : told s rs r = some false) (later : List Request) : told s (rs ++ later) r = some false := by
  cases r
  case record => cases h
  all_goals
    simp [told] at h ⊢
    omega

-- How fresh counters stand after a list of requests.
structure Governed (s : Settings) (rs : List Request) : Prop where
  blocks      : (after s rs).blocks.toNat = min (rs.count block) s.maxBlocks ∧
                  ((after s rs).blocksTruncated = true ↔ s.maxBlocks < rs.count block) ∧
                  answer s rs block = some (decide (rs.count block < s.maxBlocks))
  comparisons : (after s rs).comparisons.toNat = min (rs.count comparison) s.maxComparisons ∧
                  ((after s rs).comparisonsTruncated = true ↔ s.maxComparisons < rs.count comparison) ∧
                  answer s rs comparison = some (decide (rs.count comparison < s.maxComparisons))
  totals      : (after s rs).oversized.toNat = min (rs.map oversized).sum Tally.cap ∧
                  (after s rs).untracked.toNat = min (rs.map untracked).sum Tally.cap ∧
                  (after s rs).tooLong.toNat = min (rs.map tooLong).sum Tally.cap
  -- Nothing else is counted.
  others      : { after s rs with
                  blocks := 0, blocksTruncated := false, comparisons := 0, comparisonsTruncated := false
                  oversized := 0, untracked := 0, tooLong := 0 } = ({} : Counters)
  -- What is refused once is refused from then on.
  refused     : ∀ r, answer s rs r = some false → ∀ later, answer s (rs ++ later) r = some false
  recorded    : ∀ o u t, answer s rs (record o u t) = none ∧
                  after s (rs ++ [record o u t]) = { after s rs with
                    oversized := (after s rs).oversized + .ofNat o
                    untracked := (after s rs).untracked + .ofNat u
                    tooLong   := (after s rs).tooLong + .ofNat t }
  shuffled    : ∀ rs', rs ~ rs' → after s rs' = after s rs

-- (Ceilings are 64-bit words, and so are the counters.)
theorem governed_of_le_cap (hb : s.maxBlocks ≤ Tally.cap) (hc : s.maxComparisons ≤ Tally.cap) (rs : List Request) :
    Governed s rs := by
  have ha := after_eq_tallied hb hc
  have ht := answer_eq_told hb hc
  constructor
  case blocks =>
    refine ⟨?_, by simp [ha, tallied], by simp [ht, told]⟩
    rw [ha, tallied, Tally.toNat_ofNat]
    omega
  case comparisons =>
    refine ⟨?_, by simp [ha, tallied], by simp [ht, told]⟩
    rw [ha, tallied, Tally.toNat_ofNat]
    omega
  case totals   => simp [ha, tallied]
  case others   => rw [ha]; rfl
  case refused  =>
    intro r hr later
    rw [ht] at hr ⊢
    exact told_append hr later
  case recorded => exact fun o u t => ⟨rfl, after_concat s rs _⟩
  case shuffled => exact fun rs' h => by rw [ha, ha, tallied_perm h]

-- No block is ever admitted, and as many comparisons as a counter can tell.
def uneven : Settings :=
  { maxBlocks := 0, maxComparisons := Tally.cap }

def insistent : List Request :=
  List.replicate (Tally.cap + 1) comparison ++ [block, record Tally.cap 1 0, block, record 5 2 3]

theorem governed_uneven :
    uneven.maxBlocks ≤ Tally.cap ∧ uneven.maxComparisons ≤ Tally.cap ∧ Governed uneven insistent ∧
      (after uneven insistent).blocks.toNat = 0 ∧ (after uneven insistent).blocksTruncated = true ∧
      (after uneven insistent).comparisons.toNat = Tally.cap ∧ (after uneven insistent).comparisonsTruncated = true ∧
      (after uneven insistent).oversized.toNat = Tally.cap ∧ (after uneven insistent).untracked.toNat = 3 ∧
      answer uneven (insistent ++ [comparison]) block = some false := by
  have hb : uneven.maxBlocks ≤ Tally.cap := Nat.zero_le _
  have hc : uneven.maxComparisons ≤ Tally.cap := Nat.le_refl _
  have hg := governed_of_le_cap hb hc insistent
  have hblock : insistent.count block = 2 := by simp [insistent, List.count_replicate]
  have hcomparison : insistent.count comparison = Tally.cap + 1 := by simp [insistent]
  have hoversized : (insistent.map oversized).sum = Tally.cap + 5 := by simp [insistent, oversized]
  have huntracked : (insistent.map untracked).sum = 3 := by simp [insistent, untracked]
  refine ⟨hb, hc, hg, ?_, hg.blocks.2.1.mpr ?_, ?_, hg.comparisons.2.1.mpr ?_, ?_, ?_, hg.refused block ?_ _⟩
  · rw [hg.blocks.1, hblock]; rfl
  · rw [hblock]; exact Nat.zero_lt_two
  · rw [hg.comparisons.1, hcomparison]; exact Nat.min_eq_right (Nat.le_succ _)
  · rw [hcomparison]; exact Nat.lt_succ_self _
  · rw [hg.totals.1, hoversized]; exact Nat.min_eq_right (Nat.le_add_right _ 5)
  · rw [hg.totals.2.1, huntracked]; rfl
  · rw [hg.blocks.2.2, hblock]; rfl

end Request
end DuplicateBlocks
