import DuplicateBlocks.Options.Resolution
import DuplicateBlocks.Proofs.Exclusion
import DuplicateBlocks.Proofs.Number
import DuplicateBlocks.Tally

namespace DuplicateBlocks

structure Settings.InRange (s : Settings) : Prop where
  minLines       : 1 ≤ s.minLines ∧ s.minLines ≤ Options.maxMinLines
  threshold      : s.threshold ≠ .nan ∧ Binary64.zero.le s.threshold = true ∧ s.threshold.le .hundred = true
  maxBlocks      : 1 ≤ s.maxBlocks ∧ s.maxBlocks ≤ Tally.cap
  maxComparisons : 1 ≤ s.maxComparisons ∧ s.maxComparisons ≤ Tally.cap
  contentBytes   : 1 ≤ s.code.contentBytes ∧ s.code.contentBytes ≤ Tally.cap
  names          : 1 ≤ s.code.names ∧ s.code.names ≤ Tally.cap
  nameLength     : 1 ≤ s.code.nameLength ∧ s.code.nameLength ≤ Tally.cap
  patterns       : s.excluded.patterns.length ≤ Exclusion.maxPatterns

namespace Options

variable {v : Json} {x : Binary64} {default : Nat}

def Raw.value? (raw : Raw) : Key → Option Json
  | .minLines        => raw.minLines
  | .threshold       => raw.threshold
  | .excludePatterns => raw.excludePatterns
  | .maxBlocks       => raw.maxBlocks
  | .maxComparisons  => raw.maxComparisons
  | .maxContentBytes => raw.maxContentBytes
  | .maxNames        => raw.maxNames
  | .maxNameLength   => raw.maxNameLength

-- Two settings are the same in what an option is for.
def Key.Agree (s t : Settings) : Key → Prop
  | .minLines        => s.minLines = t.minLines
  | .threshold       => s.threshold = t.threshold
  | .excludePatterns => s.excluded = t.excluded
  | .maxBlocks       => s.maxBlocks = t.maxBlocks
  | .maxComparisons  => s.maxComparisons = t.maxComparisons
  | .maxContentBytes => s.code.contentBytes = t.code.contentBytes
  | .maxNames        => s.code.names = t.code.names
  | .maxNameLength   => s.code.nameLength = t.code.nameLength

theorem isFinite_of_number? (h : number? v = some x) : x.isFinite = true :=
  (Option.filter_eq_some_iff.mp h).2

theorem minLines_of_number? (default : Nat) (hx : number? v = some x) :
    minLines default (some v) =
      if x.floor.lt (.ofNat 1) then (1, [.belowOne .minLines x.floor])
      else if (Binary64.ofNat maxMinLines).lt x.floor then (maxMinLines, [.aboveMost .minLines x.floor maxMinLines])
      else (x.floor.wholePart, []) := by
  rw [minLines, hx]

theorem minLines_mem (hd : 1 ≤ default ∧ default ≤ maxMinLines) (given : Option Json) :
    1 ≤ (minLines default given).1 ∧ (minLines default given).1 ≤ maxMinLines := by
  have hm : 1 ≤ maxMinLines := by decide
  cases given
  case none => exact hd
  case some v =>
    cases hx : number? v
    case none => rw [minLines, hx]; exact hd
    case some x =>
      have hf := Binary64.isFinite_floor (isFinite_of_number? hx)
      rw [minLines_of_number? default hx, Binary64.ofNat_of_lt (by decide), Binary64.ofNat_of_lt (by decide)]
      split
      case isTrue => exact ⟨Nat.le_refl 1, hm⟩
      case isFalse hb =>
        split
        case isTrue => exact ⟨hm, Nat.le_refl _⟩
        case isFalse ha =>
          have hn := Binary64.ne_nan_of_isFinite hf
          have hl := Binary64.le_of_not_lt (Binary64.whole_ne_nan 1) hn hb
          have hg := Binary64.le_of_not_lt hn (Binary64.whole_ne_nan maxMinLines) ha
          exact ⟨Binary64.le_wholePart hf hl, Binary64.wholePart_le hf hl hg⟩

theorem threshold_mem (default : Nat) (hd : default ≤ 100) (given : Option Json) :
    Binary64.zero.le (threshold default given).1 = true ∧ (threshold default given).1.le .hundred = true := by
  have hdefault : Binary64.zero.le (.ofNat default) = true ∧ (Binary64.ofNat default).le .hundred = true := by
    rw [Binary64.ofNat_of_lt (by omega), Binary64.zero_eq_whole, Binary64.hundred_eq_whole, Binary64.whole_le_whole,
      Binary64.whole_le_whole]
    exact ⟨Nat.zero_le _, hd⟩
  cases given
  case none => simpa only [threshold] using hdefault
  case some v =>
    cases hx : number? v
    case none => simpa only [threshold, hx] using hdefault
    case some x =>
      simp only [threshold, hx]
      have hzh : Binary64.zero.le .hundred = true := by
        rw [Binary64.zero_eq_whole, Binary64.hundred_eq_whole, Binary64.whole_le_whole]
        exact Nat.zero_le _
      exact Binary64.clamp_spec (Binary64.ne_nan_of_isFinite (isFinite_of_number? hx)) hzh

theorem ceiling_mem (key : Key) (hd : 1 ≤ default ∧ default ≤ Tally.cap) (given : Option Json) :
    1 ≤ (ceiling key default given).1 ∧ (ceiling key default given).1 ≤ Tally.cap := by
  cases given
  case none => exact hd
  case some v =>
    rw [ceiling]
    cases hx : (number? v).filter (Binary64.ofNat 1).le
    case none => exact hd
    case some x =>
      have ⟨hn, hl⟩ := Option.filter_eq_some_iff.mp hx
      rw [Binary64.ofNat_of_lt (by decide)] at hl
      have h1 := Binary64.le_wholePart (isFinite_of_number? hn) hl
      exact ⟨Nat.le_min.mpr ⟨h1, by decide⟩, Nat.min_le_right ..⟩

theorem length_patterns_exclusion_le (given : Option Json) :
    (exclusion given).1.patterns.length ≤ Exclusion.maxPatterns := by
  unfold exclusion
  split
  case h_3 items =>
    have hs := (Exclusion.patterns_ofPatterns_sublist (items.filterMap Json.string?)).length_le
    exact hs.trans (List.length_take_le ..)
  all_goals exact Nat.zero_le _

theorem agree_resolve {raw raw' : Raw} {k : Key} (h : raw.value? k = raw'.value? k) :
    k.Agree raw.resolve.1 raw'.resolve.1 := by
  cases k
  case minLines        => exact congrArg (fun v => (minLines _ v).1) h
  case threshold       => exact congrArg (fun v => (threshold 80 v).1) h
  case excludePatterns => exact congrArg (fun v => (exclusion v).1) h
  case maxBlocks       => exact congrArg (fun v => (ceiling _ _ v).1) h
  case maxComparisons  => exact congrArg (fun v => (ceiling _ _ v).1) h
  case maxContentBytes => exact congrArg (fun v => (ceiling _ _ v).1) h
  case maxNames        => exact congrArg (fun v => (ceiling _ _ v).1) h
  case maxNameLength   => exact congrArg (fun v => (ceiling _ _ v).1) h

-- Any options resolve to settings in range, and a setting that is given in the same way resolves to the same.
theorem inRange_resolve (raw : Raw) :
    raw.resolve.1.InRange ∧
      ∀ (raw' : Raw) (k : Key), raw.value? k = raw'.value? k → k.Agree raw.resolve.1 raw'.resolve.1 := by
  refine ⟨?_, fun _ _ h => agree_resolve h⟩
  have ht := threshold_mem 80 (by decide) raw.threshold
  constructor
  case minLines       => exact minLines_mem (by decide) raw.minLines
  case threshold      => exact ⟨(Binary64.ne_nan_of_le ht.1).2, ht⟩
  case maxBlocks      => exact ceiling_mem _ (by decide) raw.maxBlocks
  case maxComparisons => exact ceiling_mem _ (by decide) raw.maxComparisons
  case contentBytes   => exact ceiling_mem _ (by decide) raw.maxContentBytes
  case names          => exact ceiling_mem _ (by decide) raw.maxNames
  case nameLength     => exact ceiling_mem _ (by decide) raw.maxNameLength
  case patterns       => exact length_patterns_exclusion_le raw.excludePatterns

-- Options that are just below, far above or beside what is asked for.
def wild : Raw where
  minLines := some (.string "0.999")
  threshold := some (.number (.negative 0))
  excludePatterns := some (.object [])
  maxBlocks := some (.string "1e300")
  maxComparisons := some (.string "inf")
  maxContentBytes := some (.bool true)
  maxNames := some (.nat 7)

theorem inRange_wild :
    wild.value? .maxNames = Raw.value? { maxNames := some (.nat 7) } .maxNames ∧
      wild.resolve.1.InRange ∧ Key.maxNames.Agree wild.resolve.1 (Raw.resolve { maxNames := some (.nat 7) }).1 ∧
      wild.resolve.1.minLines = 1 ∧ wild.resolve.1.threshold = .zero ∧ wild.resolve.1.maxBlocks = Tally.cap ∧
      wild.resolve.1.maxComparisons = 1000000 ∧ wild.resolve.1.code.names = 7 := by
  have ⟨hr, ha⟩ := inRange_resolve wild
  exact ⟨rfl, hr, ha { maxNames := some (.nat 7) } .maxNames rfl, by decide +kernel⟩

end Options
end DuplicateBlocks
